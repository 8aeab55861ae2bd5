import AphroditeOs.Bootmem.Calls
import AphroditeOs.Bootmem.Soundness

/-!
# Packing

A node whose free pages are one run works as a bump allocator when all requests are aligned to cache
lines and have no goal.  `last_pos` and `last_offset` are the pointer, cut into page and offset.
-/

namespace AphroditeOs

/-- `SMP_CACHE_BYTES` (`asm/mmzone.h`). -/
def smpCacheBytes : Word := 1#32 <<< 6

/-- A bump allocator between `start` and `limit`: the pointer moves behind a region that begins at
the next multiple of `w`. -/
def bump (w start limit : Nat) : Transition.System Nat where
  Init e := e = start
  Step e e' := ∃ size, 1 ≤ size ∧ e' = Align.roundUp e w + size ∧ e' ≤ limit

/-- Runs of requests that are aligned to cache lines and have no goal. -/
def packRuns (ALIGN : Word → Word → Word) (s : BootState) : Transition.System BootRun where
  Init x := x = ⟨s, []⟩
  Step x y := ∃ size ret t, Admissible size smpCacheBytes ∧
    allocBootmemCore ALIGN size smpCacheBytes 0#32 x.state = .ok (ret, t) ∧
    y = ⟨t, (ret.map fun ret ↦ Region.mk (pa ret) size smpCacheBytes).toList ++ x.live⟩

/-- The end of the last region, or of page `a - 1` before the first one. -/
def BootRun.top (a : Nat) (x : BootRun) : Nat :=
  match x.live with
  | [] => a * 4096
  | r :: _ => r.addr.toNat + r.size.toNat

/-- A request returns `NULL` and changes nothing, or is given the next cache line. -/
def Packed (ALIGN : Word → Word → Word) (s : BootState) (a : Nat) : Prop :=
  ∀ x, Transition.Reachable (packRuns ALIGN s) x → ∀ size, Admissible size smpCacheBytes →
    allocBootmemCore ALIGN size smpCacheBytes 0#32 x.state = .ok (none, x.state) ∨
      ∃ ret t, allocBootmemCore ALIGN size smpCacheBytes 0#32 x.state = .ok (some ret, t) ∧
        (pa ret).toNat = Align.roundUp (x.top a) 64 ∧ (pa ret).toNat < x.top a + 64

/-- The free pages of the node begin behind the last region, and the hints name its end. -/
structure Bumped (s : BootState) (a b : Nat) (x : BootRun) : Prop where
  node : ZeroNode x.state.bdata
  map_eq : x.state.bdata.map = s.bdata.map
  nodeLowPfn_eq : x.state.bdata.nodeLowPfn = s.bdata.nodeLowPfn
  free : nodeFree x.state = Set.Ico (pagesBelow (x.top a)) b
  le_top : a * 4096 ≤ x.top a
  lastOffset : x.state.bdata.lastOffset.toNat = x.top a % 4096
  lastPos : x.state.bdata.lastOffset ≠ 0#32 →
    x.state.bdata.lastPos.toNat + 1 = pagesBelow (x.top a) ∧
      pagesBelow (x.top a) ≤ x.state.bdata.nodeLowPfn.toNat

section

variable {ALIGN : Word → Word → Word} {s : BootState} {a b : Nat} {x : BootRun} {size start : Word}

theorem alignOk_smpCacheBytes : AlignOk smpCacheBytes := Or.inl ⟨6, rfl⟩

theorem toNat_smpCacheBytes : smpCacheBytes.toNat = 64 := rfl

theorem top_nil (s : BootState) : BootRun.top a ⟨s, []⟩ = a * 4096 := rfl

theorem top_cons (s : BootState) (r : Region) (live : List Region) :
    BootRun.top a ⟨s, r :: live⟩ = r.addr.toNat + r.size.toNat := rfl

theorem bumped_init (hnode : ZeroNode s.bdata) (hoff : s.bdata.lastOffset = 0#32)
    (hfree : nodeFree s = Set.Ico a b) : Bumped s a b ⟨s, []⟩ where
  node := hnode
  map_eq := rfl
  nodeLowPfn_eq := rfl
  free := by
    rw [hfree, top_nil, show pagesBelow (a * 4096) = a by unfold pagesBelow; omega]
  le_top := le_rfl
  lastOffset := by
    rw [hoff, top_nil, Nat.mul_mod_left]
    exact BitVec.toNat_zero
  lastPos := fun h ↦ absurd hoff h

theorem Bumped.tail (hx : Bumped s a b x) : TailOk x.state.bdata := by
  constructor
  · rw [hx.lastOffset]
    exact Nat.mod_lt _ (by decide)
  · intro h
    have := hx.lastPos h
    omega

/-! ## A request -/

-- A run of free pages that is long enough begins behind the last region and ends before page `b`.
theorem Bumped.mem_freeRuns_iff (hx : Bumped s a b x) (hsize : 1 ≤ size.toNat) {p : Nat} :
    p ∈ freeRuns x.state size ↔
      pagesBelow (x.top a) ≤ p ∧ p + (size.toNat + 4095) / 4096 ≤ b := by
  have hmem : ∀ q, q < x.state.bdata.nodeLowPfn.toNat ∧ x.state.busy q = false ↔
      pagesBelow (x.top a) ≤ q ∧ q < b := by
    intro q
    show q ∈ nodeFree x.state ↔ _
    rw [hx.free, Set.mem_Ico]
  constructor
  · rintro ⟨hfit, hfree⟩
    have hfirst := (hmem p).mp ⟨by omega, hfree p le_rfl (by omega)⟩
    have hlast := (hmem (p + (size.toNat + 4095) / 4096 - 1)).mp
      ⟨by omega, hfree _ (by omega) (by omega)⟩
    omega
  · rintro ⟨hlo, hhi⟩
    have hlast := (hmem (p + (size.toNat + 4095) / 4096 - 1)).mpr ⟨by omega, by omega⟩
    refine ⟨by omega, fun q hq hq' ↦ ?_⟩
    exact ((hmem q).mpr ⟨by omega, by omega⟩).2

-- A request settles on the first free page.
theorem Bumped.start_eq (hx : Bumped s a b x) (h : Admissible size smpCacheBytes)
    (hstart : SettlesOn x.state size smpCacheBytes 0#32 start.toNat) :
    start.toNat = pagesBelow (x.top a) ∧ start.toNat + (size.toNat + 4095) / 4096 ≤ b := by
  rw [settlesOn_no_goal hx.node.indexed h.align_pow (by decide)] at hstart
  have hmem := (hx.mem_freeRuns_iff h.size_pos).mp hstart.1
  have hleast := hstart.2 ((hx.mem_freeRuns_iff h.size_pos).mpr ⟨le_rfl, by omega⟩)
  omega

/-- The area for the first free page begins with the next cache line. -/
theorem Bumped.regionAddr_eq (hx : Bumped s a b x) (hstart : start.toNat = pagesBelow (x.top a)) :
    regionAddr x.state.bdata smpCacheBytes start = Align.roundUp (x.top a) 64 := by
  have hoff := hx.lastOffset
  unfold pagesBelow at hstart
  unfold regionAddr Align.roundUp
  rw [toNat_smpCacheBytes]
  by_cases hz : x.state.bdata.lastOffset = 0#32
  · -- the last region ends with its page
    rw [hz, BitVec.toNat_zero] at hoff
    rw [if_neg fun h ↦ h.2.1 hz]
    omega
  · -- the last page has a tail, and page `start` comes right after it
    have hpos := hx.lastPos hz
    unfold pagesBelow at hpos
    have hnext : x.state.bdata.lastPos + 1#32 = start := by
      have hlow := hx.node.nodeLowPfn
      apply BitVec.eq_of_toNat_eq
      rw [toNat_add_one (by omega)]
      omega
    have hne : x.top a % 4096 ≠ 0 := by
      rw [← hoff]
      exact fun h ↦ hz (BitVec.eq_of_toNat_eq h)
    rw [if_pos ⟨by decide, hz, hnext⟩]
    omega

-- No part of the bitmap lies in an area.
theorem Bumped.miss_bitmap (hx : Bumped s a b x) (hfree : nodeFree s = Set.Ico a b)
    (hmap : ∀ p ∈ nodeFree s, ¬ HoldsBitmap s.bdata p) {addr p : Nat} (hlo : x.top a ≤ addr)
    (hhi : addr < b * 4096) (hp : p < x.state.bdata.nodeLowPfn.toNat) :
    addr ≠ x.state.bdata.map + p / 8 := by
  intro heq
  have htop := hx.le_top
  apply hmap (addr / 4096)
  · rw [hfree, Set.mem_Ico]
    omega
  · refine ⟨p, ?_, ?_⟩
    · rwa [← hx.nodeLowPfn_eq]
    · rw [← hx.map_eq, ← heq]

theorem Bumped.top_alloc (hx : Bumped s a b x)
    (hv : ViableStart x.state size smpCacheBytes start.toNat) :
    BootRun.top a ⟨allocEffect x.state size smpCacheBytes start,
      newRegion x.state.bdata size smpCacheBytes start :: x.live⟩ =
      regionEnd x.state.bdata size smpCacheBytes start := by
  rw [top_cons, toNat_addr_newRegion hx.node hx.tail alignOk_smpCacheBytes hv.2.1]
  rfl

-- The pages taken are the first free ones, and no other bit changes.
theorem Bumped.nodeFree_alloc (hx : Bumped s a b x) (hfree : nodeFree s = Set.Ico a b)
    (hmap : ∀ p ∈ nodeFree s, ¬ HoldsBitmap s.bdata p)
    (hstart : start.toNat = pagesBelow (x.top a))
    (hfit : start.toNat + (size.toNat + 4095) / 4096 ≤ b) :
    nodeFree (allocEffect x.state size smpCacheBytes start) =
      Set.Ico (pagesBelow (regionEnd x.state.bdata size smpCacheBytes start)) b := by
  have haddr := hx.regionAddr_eq hstart
  have hle := pagesBelow_regionEnd_le size start hx.node hx.tail alignOk_smpCacheBytes
  have hup := Align.le_roundUp (x.top a) (show 0 < 64 by decide)
  have hgrow : pagesBelow (x.top a) ≤
      pagesBelow (regionEnd x.state.bdata size smpCacheBytes start) := by
    unfold pagesBelow regionEnd
    omega
  ext p
  have hold : p < x.state.bdata.nodeLowPfn.toNat ∧ x.state.busy p = false ↔
      pagesBelow (x.top a) ≤ p ∧ p < b := by
    show p ∈ nodeFree x.state ↔ _
    rw [hx.free, Set.mem_Ico]
  show p < x.state.bdata.nodeLowPfn.toNat ∧
    (allocEffect x.state size smpCacheBytes start).busy p = false ↔ _
  rw [Set.mem_Ico, ← Bool.not_eq_true, busy_allocEffect]
  rw [← Bool.not_eq_true] at hold
  -- the area ends below page `b`, so the bit of `p` is not in it
  have hmiss : p < x.state.bdata.nodeLowPfn.toNat →
      ¬ (8 * regionAddr x.state.bdata smpCacheBytes start ≤ 8 * x.state.bdata.map + p ∧
        8 * x.state.bdata.map + p < 8 * regionEnd x.state.bdata size smpCacheBytes start) := by
    rintro hp ⟨hlo, hhi⟩
    unfold pagesBelow at hle
    exact hx.miss_bitmap hfree hmap (by omega) (by omega) hp rfl
  constructor
  · rintro ⟨hp, hnot⟩
    rw [and_iff_left (hmiss hp), not_or] at hnot
    have := hold.mp ⟨hp, hnot.1⟩
    omega
  · rintro ⟨hlo, hhi⟩
    obtain ⟨hp, hnot⟩ := hold.mpr ⟨by omega, hhi⟩
    refine ⟨hp, ?_⟩
    rw [and_iff_left (hmiss hp), not_or]
    exact ⟨hnot, by omega⟩

theorem Bumped.alloc (hx : Bumped s a b x) (hfree : nodeFree s = Set.Ico a b)
    (hmap : ∀ p ∈ nodeFree s, ¬ HoldsBitmap s.bdata p) (h : Admissible size smpCacheBytes)
    (hv : ViableStart x.state size smpCacheBytes start.toNat)
    (hstart : start.toNat = pagesBelow (x.top a))
    (hfit : start.toNat + (size.toNat + 4095) / 4096 ≤ b) :
    Bumped s a b ⟨allocEffect x.state size smpCacheBytes start,
      newRegion x.state.bdata size smpCacheBytes start :: x.live⟩ := by
  have htop := hx.top_alloc hv
  have haddr := hx.regionAddr_eq hstart
  have hup := Align.le_roundUp (x.top a) (show 0 < 64 by decide)
  have hsize := h.size_pos
  constructor
  · exact zeroNode_nextHints hx.node
  · exact hx.map_eq
  · exact hx.nodeLowPfn_eq
  · rw [htop]
    exact hx.nodeFree_alloc hfree hmap hstart hfit
  · have hle := hx.le_top
    rw [htop]
    unfold regionEnd
    omega
  · rw [htop]
    exact toNat_lastOffset_nextHints
  · intro _
    have hpos := toNat_lastPos_nextHints hx.node hx.tail alignOk_smpCacheBytes hsize hv.2.1
    have hle := pagesBelow_regionEnd_le size start hx.node hx.tail alignOk_smpCacheBytes
    have hlow := hv.2.1
    have hone : 1 ≤ pagesBelow (regionEnd x.state.bdata size smpCacheBytes start) := by
      unfold pagesBelow regionEnd
      omega
    rw [htop]
    show (nextHints x.state.bdata size smpCacheBytes start).lastPos.toNat + 1 = _ ∧
      _ ≤ x.state.bdata.nodeLowPfn.toNat
    rw [hpos]
    omega

/-- Everything a request can do in a packed run. -/
theorem Bumped.request (hA : AlignSpec ALIGN) (hx : Bumped s a b x)
    (hfree : nodeFree s = Set.Ico a b) (hmap : ∀ p ∈ nodeFree s, ¬ HoldsBitmap s.bdata p)
    (h : Admissible size smpCacheBytes) :
    allocBootmemCore ALIGN size smpCacheBytes 0#32 x.state = .ok (none, x.state) ∨
      ∃ ret t, allocBootmemCore ALIGN size smpCacheBytes 0#32 x.state = .ok (some ret, t) ∧
        (pa ret).toNat = Align.roundUp (x.top a) 64 ∧
        (pa ret).toNat + size.toNat ≤ b * 4096 ∧
        Bumped s a b ⟨t, ⟨pa ret, size, smpCacheBytes⟩ :: x.live⟩ := by
  rcases allocBootmemCore_settles 0#32 hA hx.node hx.tail h with
    ⟨-, hnull⟩ | ⟨start, hsettles, hv, hfound⟩
  · exact Or.inl hnull
  · obtain ⟨hstart, hfit⟩ := hx.start_eq h hsettles
    have haddr := toNat_addr_newRegion hx.node hx.tail alignOk_smpCacheBytes hv.2.1
    have hle := pagesBelow_regionEnd_le size start hx.node hx.tail alignOk_smpCacheBytes
    have hnew : (pa (va (BitVec.ofNat 32 (regionAddr x.state.bdata smpCacheBytes start)))) =
        (newRegion x.state.bdata size smpCacheBytes start).addr := pa_va _
    refine Or.inr ⟨_, _, hfound, ?_, ?_, ?_⟩
    · rw [hnew, haddr, hx.regionAddr_eq hstart]
    · rw [hnew, haddr]
      unfold pagesBelow regionEnd at hle
      omega
    · rw [hnew]
      exact hx.alloc hfree hmap h hv hstart hfit

/-! ## Runs -/

/-- The pointer of a bump allocator follows the requests of a run. -/
theorem bump_simulation (hA : AlignSpec ALIGN) (hnode : ZeroNode s.bdata)
    (hoff : s.bdata.lastOffset = 0#32) (hfree : nodeFree s = Set.Ico a b)
    (hmap : ∀ p ∈ nodeFree s, ¬ HoldsBitmap s.bdata p) :
    Transition.Simulation (packRuns ALIGN s) (bump 64 (a * 4096) (b * 4096)) (Bumped s a b)
      (BootRun.top a) := by
  constructor
  · rintro x rfl
    exact ⟨bumped_init hnode hoff hfree, top_nil s⟩
  · rintro x y hx ⟨size, ret, t, h, hcall, rfl⟩
    rcases hx.request hA hfree hmap h with hnull | ⟨ret', t', hfound, haddr, hlimit, hnew⟩
    · rw [hnull] at hcall
      cases hcall
      exact ⟨hx, Or.inl rfl⟩
    · rw [hfound] at hcall
      cases hcall
      refine ⟨hnew, Or.inr ⟨size.toNat, h.size_pos, ?_, ?_⟩⟩
      · rw [← haddr]
        exact top_cons _ _ _
      · exact hlimit

/-- **Packing.**  On a node whose free pages are one run, and hold no part of the bitmap, requests
are packed from the begin of the run on, as by a bump allocator. -/
theorem packed_of_bitmap_reserved (hA : AlignSpec ALIGN) (hnode : ZeroNode s.bdata)
    (hoff : s.bdata.lastOffset = 0#32) (hfree : nodeFree s = Set.Ico a b)
    (hmap : ∀ p ∈ nodeFree s, ¬ HoldsBitmap s.bdata p) :
    Packed ALIGN s a ∧ ∀ x, Transition.Reachable (packRuns ALIGN s) x →
      Transition.Reachable (bump 64 (a * 4096) (b * 4096)) (x.top a) := by
  have hsim := bump_simulation hA hnode hoff hfree hmap
  constructor
  · intro x hx size h
    rcases (hsim.reachable hx).1.request hA hfree hmap h with hnull | ⟨ret, t, hfound, haddr, -, -⟩
    · exact Or.inl hnull
    · refine Or.inr ⟨ret, t, hfound, haddr, ?_⟩
      rw [haddr]
      exact Align.roundUp_lt _ (by decide)
  · exact fun x hx ↦ (hsim.reachable hx).2

end

-- Eight free pages, and the bitmap above them.
theorem packed_openNode : Packed alignMask (openNode 100#32 8#32) 0 := by
  have hbusy : ∀ q < 8, (openNode 100#32 8#32).busy q = false := by decide +kernel
  have hlow : (openNode 100#32 8#32).bdata.nodeLowPfn.toNat = 8 := by decide
  have hmap : (openNode 100#32 8#32).bdata.map = 409600 := by decide
  have hfree : nodeFree (openNode 100#32 8#32) = Set.Ico 0 8 := by
    ext p
    show p < _ ∧ _ ↔ _
    rw [hlow, Set.mem_Ico]
    exact ⟨fun h ↦ ⟨Nat.zero_le p, h.1⟩, fun h ↦ ⟨h.2, hbusy p h.2⟩⟩
  refine (packed_of_bitmap_reserved alignMask_spec ⟨rfl, by decide⟩ (by decide) hfree ?_).1
  rintro p ⟨hp, -⟩ ⟨q, hq, hpage⟩
  omega

/-- With the bitmap in page 1 of the run, a first region of two pages covers it: the `memset` clears
the bits just set, and the next request is given page 0 again. -/
theorem openNode_not_packed :
    nodeFree (openNode 1#32 8#32) = Set.Ico 0 8 ∧ ¬ Packed alignMask (openNode 1#32 8#32) 0 := by
  have hbusy : ∀ q < 8, (openNode 1#32 8#32).busy q = false := by decide +kernel
  have hlow : (openNode 1#32 8#32).bdata.nodeLowPfn.toNat = 8 := by decide
  constructor
  · ext p
    show p < _ ∧ _ ↔ _
    rw [hlow, Set.mem_Ico]
    exact ⟨fun h ↦ ⟨Nat.zero_le p, h.1⟩, fun h ↦ ⟨h.2, hbusy p h.2⟩⟩
  intro h
  let second : BootState := allocEffect (openNode 1#32 8#32) (pfnPhys 2#32) smpCacheBytes 0#32
  have hcall := allocBootmemCore_of_found alignMask_spec
    (show ZeroNode (openNode 1#32 8#32).bdata from ⟨by decide, by decide⟩)
    ⟨by decide, by decide⟩ (by decide) (by decide) alignOk_smpCacheBytes
    (show findStart alignMask (openNode 1#32 8#32) (pfnPhys 2#32) smpCacheBytes 0#32 =
      .found 0#32 by decide +kernel)
  have hcall' := allocBootmemCore_of_found alignMask_spec
    (show ZeroNode second.bdata from ⟨by decide, by decide⟩)
    ⟨by decide, by decide⟩ (by decide) (by decide) alignOk_smpCacheBytes
    (show findStart alignMask second (pfnPhys 1#32) smpCacheBytes 0#32 = .found 0#32
      by decide +kernel)
  have hreach : Transition.Reachable (packRuns alignMask (openNode 1#32 8#32))
      ⟨second, [⟨pa (va (BitVec.ofNat 32
        (regionAddr (openNode 1#32 8#32).bdata smpCacheBytes 0#32))), pfnPhys 2#32,
        smpCacheBytes⟩]⟩ :=
    .step (.init rfl) ⟨_, _, _, ⟨by decide, by decide, ⟨6, rfl⟩⟩, hcall, rfl⟩
  rcases h _ hreach (pfnPhys 1#32) ⟨by decide, by decide, ⟨6, rfl⟩⟩ with
    hnull | ⟨ret, t, hfound, haddr, -⟩
  · rw [hcall'] at hnull
    cases hnull
  · rw [hcall'] at hfound
    rw [← Option.some.inj (Prod.mk.inj (Except.ok.inj hfound)).1] at haddr
    revert haddr
    decide +kernel

end AphroditeOs
