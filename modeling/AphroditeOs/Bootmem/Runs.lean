import AphroditeOs.Bootmem.Area
import AphroditeOs.Lib.Transition

/-!
# Runs of the boot allocator

A run is a sequence of calls together with the regions they have handed out.  Whatever a run
hands out lies in the pages the node could give away at its start, closed under what an
overwritten bitmap can free.
-/

namespace AphroditeOs

/-- A region handed out: its physical address, and the size and alignment asked for. -/
structure Region where
  addr : Word
  size : Word
  align : Word
  deriving DecidableEq, Repr

def Region.bytes (r : Region) : Range := ⟨r.addr.toNat, r.addr.toNat + r.size.toNat⟩

/-- The region of a call that settled on page `start`. -/
def newRegion (b : BootmemData) (size align start : Word) : Region :=
  ⟨BitVec.ofNat 32 (regionAddr b align start), size, align⟩

def Region.Touches (r : Region) (p : Nat) : Prop := ∃ a ∈ r.bytes, a / 4096 = p

def Region.Disjoint (r r' : Region) : Prop := ∀ a, a ∈ r.bytes → a ∉ r'.bytes

structure BootRun where
  state : BootState
  -- newest first
  live : List Region

/-- A call that returns, with a region or with `NULL`. -/
def AllocStep (ALIGN : Word → Word → Word) (size align : Word) (x y : BootRun) : Prop :=
  ∃ goal ret s', allocBootmemCore ALIGN size align goal x.state = .ok (ret, s') ∧
    y = ⟨s', (ret.map fun ret ↦ Region.mk (pa ret) size align).toList ++ x.live⟩

/-- Runs of calls from `s`, for sizes that do not wrap when they are rounded up to pages. -/
def allocRuns (ALIGN : Word → Word → Word) (s : BootState) : Transition.System BootRun where
  Init x := x = ⟨s, []⟩
  Step x y := ∃ size align : Word, size.toNat ≤ 2 ^ 32 - 4096 ∧ AllocStep ALIGN size align x y

/-- All that the node can still give away is in `R`: its free pages, and the page whose tail the
next call may use. -/
structure Confined (R : Set Nat) (s : BootState) : Prop where
  node : LowNode s.bdata
  tail : TailOk s.bdata
  free : ∀ p < s.bdata.nodeLowPfn.toNat, s.busy p = false → p ∈ R
  last : s.bdata.lastOffset ≠ 0#32 → s.bdata.lastPos.toNat ∈ R

theorem Confined.zeroNode {R : Set Nat} {s : BootState} (hc : Confined R s) : ZeroNode s.bdata :=
  hc.node.zeroNode

def nodeFree (s : BootState) : Set Nat := {p | p < s.bdata.nodeLowPfn.toNat ∧ s.busy p = false}

/-- With a page of the bitmap, `R` has all the pages whose bits are kept there. -/
def BitmapClosed (b : BootmemData) (R : Set Nat) : Prop :=
  ∀ q < b.nodeLowPfn.toNat, (b.map + q / 8) / 4096 ∈ R → q ∈ R

/-! ## One call -/

section

variable {ALIGN : Word → Word → Word} {s : BootState} {size align goal start : Word} {R : Set Nat}

-- The two checks at the head of the call.
theorem args_of_allocBootmemCore_ok {r : Option Word × BootState}
    (h : allocBootmemCore ALIGN size align goal s = .ok r) : 1 ≤ size.toNat ∧ AlignOk align := by
  unfold allocBootmemCore at h
  by_cases hsize : size = 0#32
  · rw [if_pos hsize] at h
    contradiction
  by_cases halign : align &&& (align - 1#32) = 0#32
  · refine ⟨Nat.one_le_iff_ne_zero.mpr fun hz ↦ hsize (BitVec.eq_of_toNat_eq hz), ?_⟩
    by_cases hz : align = 0#32
    · exact Or.inr hz
    · exact Or.inl ((Align.and_sub_one_eq_zero_iff hz).mp halign)
  · rw [if_neg hsize, if_pos halign] at h
    contradiction

/-- A call leaves the run as it is, or adds the region of a viable start. -/
theorem AllocStep.cases {x y : BootRun} (hA : AlignSpec ALIGN) (hnode : ZeroNode x.state.bdata)
    (htail : TailOk x.state.bdata) (hsize : size.toNat ≤ 2 ^ 32 - 4096)
    (h : AllocStep ALIGN size align x y) :
    y = x ∨ ∃ start, 1 ≤ size.toNat ∧ AlignOk align ∧
      ViableStart x.state size align start.toNat ∧
      y = ⟨allocEffect x.state size align start,
        newRegion x.state.bdata size align start :: x.live⟩ := by
  obtain ⟨goal, ret, s', hcall, rfl⟩ := h
  obtain ⟨hpos, halign⟩ := args_of_allocBootmemCore_ok hcall
  rcases allocBootmemCore_cases goal hA hnode htail hpos hsize halign with
    hnull | ⟨start, -, hv, hfound⟩
  · left
    rw [hnull] at hcall
    cases hcall
    rfl
  · right
    rw [hfound] at hcall
    cases hcall
    refine ⟨start, hpos, halign, hv, ?_⟩
    rw [Option.map_some, pa_va]
    rfl

-- A scan that settles on a page is a step.
theorem allocStep_of_found {x : BootRun} (hA : AlignSpec ALIGN) (hnode : ZeroNode x.state.bdata)
    (htail : TailOk x.state.bdata) (hsize : 1 ≤ size.toNat) (hsize' : size.toNat ≤ 2 ^ 32 - 4096)
    (halign : AlignOk align) (h : findStart ALIGN x.state size align goal = .found start) :
    AllocStep ALIGN size align x
      ⟨allocEffect x.state size align start, newRegion x.state.bdata size align start :: x.live⟩ := by
  refine ⟨goal, some (va (BitVec.ofNat 32 (regionAddr x.state.bdata align start))),
    allocEffect x.state size align start,
    allocBootmemCore_of_found hA hnode htail hsize hsize' halign h, ?_⟩
  rw [Option.map_some, pa_va]
  rfl

-- A byte of the region is in a page the scan found, or in the tail of the last page.
theorem page_of_region (hnode : ZeroNode s.bdata) (htail : TailOk s.bdata) (a : Nat)
    (hlo : regionAddr s.bdata align start ≤ a) (hhi : a < regionEnd s.bdata size align start) :
    (start.toNat ≤ a / 4096 ∧ a / 4096 < pagesBelow (regionEnd s.bdata size align start)) ∨
      s.bdata.lastOffset ≠ 0#32 ∧ a / 4096 = s.bdata.lastPos.toNat ∧
        s.bdata.lastPos.toNat * 4096 + Align.roundUp s.bdata.lastOffset.toNat align.toNat ≤ a := by
  have hpages : a / 4096 < pagesBelow (regionEnd s.bdata size align start) := by
    unfold pagesBelow
    omega
  rcases Nat.lt_or_ge (a / 4096) start.toNat with hlt | hge
  · -- a byte below page `start` means that the region was merged with the last page
    right
    unfold regionAddr at hlo
    split at hlo
    next hmerge =>
      have hlow := hnode.nodeLowPfn
      have hpos := htail.lastPos_lt hmerge.2.1
      have hstart : start.toNat = s.bdata.lastPos.toNat + 1 := by
        rw [← hmerge.2.2, toNat_add_one (by omega)]
      exact ⟨hmerge.2.1, by omega, hlo⟩
    next => omega
  · exact Or.inl ⟨hge, hpages⟩

theorem toNat_addr_newRegion {b : BootmemData} (hnode : ZeroNode b) (htail : TailOk b)
    (halign : AlignOk align)
    (hfit : start.toNat + (size.toNat + 4095) / 4096 ≤ b.nodeLowPfn.toNat) :
    (newRegion b size align start).addr.toNat = regionAddr b align start := by
  rw [newRegion, ← pa_va (BitVec.ofNat 32 (regionAddr b align start))]
  exact toNat_pa_regionAddr hnode htail halign hfit

theorem mem_bytes_newRegion {b : BootmemData} (hnode : ZeroNode b) (htail : TailOk b)
    (halign : AlignOk align)
    (hfit : start.toNat + (size.toNat + 4095) / 4096 ≤ b.nodeLowPfn.toNat) {a : Nat} :
    a ∈ (newRegion b size align start).bytes ↔
      regionAddr b align start ≤ a ∧ a < regionEnd b size align start := by
  rw [Region.bytes, Range.mem_iff, toNat_addr_newRegion hnode htail halign hfit]
  rfl

theorem Confined.region (hc : Confined R s) (hv : ViableStart s size align start.toNat)
    (halign : AlignOk align) (a : Nat) (hlo : regionAddr s.bdata align start ≤ a)
    (hhi : a < regionEnd s.bdata size align start) : a / 4096 ∈ R := by
  obtain ⟨-, hfit, hfree⟩ := hv
  have hle := pagesBelow_regionEnd_le size start hc.zeroNode hc.tail halign
  rcases page_of_region hc.zeroNode hc.tail a hlo hhi with ⟨hge, hlt⟩ | ⟨hoff, hlast, -⟩
  · exact hc.free _ (by omega) (hfree _ hge (by omega))
  · rw [hlast]
    exact hc.last hoff

/-- A call keeps the node confined, whatever of the bitmap its `memset` hits. -/
theorem Confined.alloc (hc : Confined R s) (hR : BitmapClosed s.bdata R)
    (hv : ViableStart s size align start.toNat) (halign : AlignOk align)
    (hsize : 1 ≤ size.toNat) : Confined R (allocEffect s size align start) := by
  have hregion := hc.region hv halign
  have hpos := toNat_lastPos_nextHints hc.zeroNode hc.tail halign hsize hv.2.1
  constructor
  · exact lowNode_nextHints hc.node
  · exact tailOk_nextHints hc.zeroNode hc.tail halign hsize hv.2.1
  · intro p hp hfree
    by_cases hbusy : s.busy p = true
    · -- the bit of `p` was set, so the `memset` has cleared it
      have hbit := busy_allocEffect s size align start p
      rw [hfree] at hbit
      have hin := not_not.mp fun h ↦ Bool.false_ne_true (hbit.mpr ⟨Or.inl hbusy, h⟩)
      exact hR p hp (hregion _ (by omega) (by omega))
    · exact hc.free p hp (Bool.eq_false_iff.mpr hbusy)
  · intro _
    change (nextHints s.bdata size align start).lastPos.toNat ∈ R
    -- the new last page is the page of the region's last byte
    have hlast : pagesBelow (regionEnd s.bdata size align start) - 1 =
        (regionEnd s.bdata size align start - 1) / 4096 := by
      unfold pagesBelow regionEnd
      omega
    rw [hpos, hlast]
    apply hregion <;> unfold regionEnd <;> omega

end

/-! ## Whole runs -/

theorem confined_nodeFree {s : BootState} (hnode : LowNode s.bdata)
    (hoff : s.bdata.lastOffset = 0#32) : Confined (nodeFree s) s where
  node := hnode
  tail := ⟨by rw [hoff]; decide, fun h ↦ absurd hoff h⟩
  free := fun _ hp hfree ↦ ⟨hp, hfree⟩
  last := fun h ↦ absurd hoff h

section

variable {ALIGN : Word → Word → Word} {R : Set Nat}

/-- What every state of a run from `s` satisfies. -/
structure RunConfined (R : Set Nat) (s : BootState) (x : BootRun) : Prop where
  confined : Confined R x.state
  map_eq : x.state.bdata.map = s.bdata.map
  nodeLowPfn_eq : x.state.bdata.nodeLowPfn = s.bdata.nodeLowPfn
  touches : ∀ r ∈ x.live, ∀ p, r.Touches p → p ∈ R

theorem RunConfined.alloc {s : BootState} {x : BootRun} {size align start : Word}
    (hx : RunConfined R s x) (hR : BitmapClosed s.bdata R) (hsize : 1 ≤ size.toNat)
    (halign : AlignOk align) (hv : ViableStart x.state size align start.toNat) :
    RunConfined R s ⟨allocEffect x.state size align start,
      newRegion x.state.bdata size align start :: x.live⟩ := by
  have hclosed : BitmapClosed x.state.bdata R := by
    unfold BitmapClosed
    rw [hx.map_eq, hx.nodeLowPfn_eq]
    exact hR
  refine ⟨hx.confined.alloc hclosed hv halign hsize, hx.map_eq, hx.nodeLowPfn_eq, ?_⟩
  rintro r hr p ⟨a, ha, rfl⟩
  rcases List.mem_cons.mp hr with rfl | hr
  · rw [mem_bytes_newRegion hx.confined.zeroNode hx.confined.tail halign hv.2.1] at ha
    exact hx.confined.region hv halign a ha.1 ha.2
  · exact hx.touches r hr _ ⟨a, ha, rfl⟩

theorem RunConfined.step {s : BootState} {x y : BootRun} (hA : AlignSpec ALIGN)
    (hR : BitmapClosed s.bdata R) (hx : RunConfined R s x) {size align : Word}
    (hsize : size.toNat ≤ 2 ^ 32 - 4096) (h : AllocStep ALIGN size align x y) :
    RunConfined R s y := by
  rcases h.cases hA hx.confined.zeroNode hx.confined.tail hsize with
    rfl | ⟨start, hpos, halign, hv, rfl⟩
  · exact hx
  · exact hx.alloc hR hpos halign hv

/-- **Confinement.**  A run hands out pages of `R` only. -/
theorem runConfined {s : BootState} {x : BootRun} (hA : AlignSpec ALIGN) (hs : Confined R s)
    (hR : BitmapClosed s.bdata R) (hx : Transition.Reachable (allocRuns ALIGN s) x) :
    RunConfined R s x := by
  have hinv : Transition.Invariant (allocRuns ALIGN s) (RunConfined R s) := by
    constructor
    · rintro x rfl
      exact ⟨hs, rfl, rfl, fun r hr ↦ absurd hr List.not_mem_nil⟩
    · rintro x y hx ⟨size, align, hsize, h⟩
      exact hx.step hA hR hsize h
  exact hinv.of_reachable hx

end

end AphroditeOs
