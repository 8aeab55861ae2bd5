import AphroditeOs.Bootmem.Runs

/-!
# Soundness of the boot allocator

The regions that are live at any point of a run of calls and frees.
-/

namespace AphroditeOs

/-- The states `init_bootmem` leaves, before or after calls that shape the bitmap. -/
inductive Shaped : BootState → Prop where
  | init (start page : Word) (s : BootState) : page ≤ maxmemPfn → s.bdata.lastOffset = 0#32 →
      s.bdata.lastPos = 0#32 → s.bdata.lastSuccess = 0#32 → Shaped (initBootmem start page s).2
  | free (addr size : Word) (s : BootState) : Shaped s → Shaped (freeBootmem addr size s)
  | reserve (addr size : Word) (s : BootState) : Shaped s → Shaped (reserveBootmem addr size s)

/-- Runs of calls from `s` that also give live regions back. -/
def allocFreeRuns (ALIGN : Word → Word → Word) (s : BootState) : Transition.System BootRun where
  Init x := x = ⟨s, []⟩
  Step x y :=
    (∃ size align, Admissible size align ∧ AllocStep ALIGN size align x y) ∨
      ∃ r ∈ x.live, y = ⟨freeBootmem r.addr r.size x.state, x.live.erase r⟩

/-- The live regions of a run that began in `s`. -/
structure LiveSound (s : BootState) (x : BootRun) : Prop where
  disjoint : x.live.Pairwise Region.Disjoint
  inside : ∀ r ∈ x.live, r.addr.toNat + r.size.toNat ≤ s.bdata.nodeLowPfn.toNat * 4096
  aligned : ∀ r ∈ x.live, r.align.toNat ∣ r.addr.toNat
  pages : ∀ r ∈ x.live, ∀ p, r.Touches p → s.busy p = false ∧ x.state.busy p = true

/-- Every state reached from `s` is sound, and every call there returns. -/
def Sound (ALIGN : Word → Word → Word) (s : BootState) : Prop :=
  ∀ x, Transition.Reachable (allocFreeRuns ALIGN s) x → LiveSound s x ∧
    ∀ size align goal, Admissible size align →
      ∃ r, allocBootmemCore ALIGN size align goal x.state = .ok r

/-- Page `p` holds a part of the bitmap. -/
def HoldsBitmap (b : BootmemData) (p : Nat) : Prop :=
  ∃ q < b.nodeLowPfn.toNat, (b.map + q / 8) / 4096 = p

/-- What ties the hints, the bitmap and the live regions together.  The tail of the last page is
open: no live region is in it, and its page is not free. -/
structure Tied (s : BootState) (x : BootRun) : Prop extends RunConfined (nodeFree s) s x where
  sound : LiveSound s x
  size_pos : ∀ r ∈ x.live, 1 ≤ r.size.toNat
  last_busy : x.state.bdata.lastOffset ≠ 0#32 →
    x.state.busy x.state.bdata.lastPos.toNat = true
  tail_open : x.state.bdata.lastOffset ≠ 0#32 → ∀ r ∈ x.live, ∀ a ∈ r.bytes,
    a / 4096 = x.state.bdata.lastPos.toNat →
      a < x.state.bdata.lastPos.toNat * 4096 + x.state.bdata.lastOffset.toNat

/-! ## The initial state -/

theorem Shaped.hints {s : BootState} (h : Shaped s) :
    LowNode s.bdata ∧ s.bdata.lastOffset = 0#32 := by
  induction h with
  | init start page s hpage hoff => exact ⟨⟨rfl, hpage⟩, hoff⟩
  | free addr size s _ ih =>
    rcases freeBootmem_bdata addr size s with hb | hb
    · rw [hb]
      exact ih
    · rw [hb]
      exact ⟨⟨ih.1.nodeBootStart, ih.1.nodeLowPfn⟩, ih.2⟩
  | reserve addr size s _ ih =>
    rw [reserveBootmem_bdata]
    exact ih

theorem bitmapClosed_nodeFree {s : BootState}
    (hmap : ∀ p ∈ nodeFree s, ¬ HoldsBitmap s.bdata p) : BitmapClosed s.bdata (nodeFree s) :=
  fun q hq hp ↦ absurd ⟨q, hq, rfl⟩ (hmap _ hp)

theorem tied_init {s : BootState} (h : Shaped s) : Tied s ⟨s, []⟩ where
  confined := confined_nodeFree h.hints.1 h.hints.2
  map_eq := rfl
  nodeLowPfn_eq := rfl
  touches := fun _ hr ↦ absurd hr List.not_mem_nil
  sound :=
    { disjoint := List.Pairwise.nil
      inside := fun _ hr ↦ absurd hr List.not_mem_nil
      aligned := fun _ hr ↦ absurd hr List.not_mem_nil
      pages := fun _ hr ↦ absurd hr List.not_mem_nil }
  size_pos := fun _ hr ↦ absurd hr List.not_mem_nil
  last_busy := fun hoff ↦ absurd h.hints.2 hoff
  tail_open := fun _ _ hr ↦ absurd hr List.not_mem_nil

/-! ## A call -/

section

variable {s : BootState} {x : BootRun} {size align start : Word}

/-- A region handed out leaves the bitmap alone, so a page is reserved after the call if it was
before or is one of the new ones. -/
theorem Tied.busy_alloc (hx : Tied s x) (hmap : ∀ p ∈ nodeFree s, ¬ HoldsBitmap s.bdata p)
    (hv : ViableStart x.state size align start.toNat) (halign : AlignOk align) {p : Nat}
    (hp : p < s.bdata.nodeLowPfn.toNat) :
    (allocEffect x.state size align start).busy p = true ↔
      x.state.busy p = true ∨
        start.toNat ≤ p ∧ p < pagesBelow (regionEnd x.state.bdata size align start) := by
  rw [busy_allocEffect]
  -- a bit that the `memset` hits would lie in a page of the node that was free
  refine and_iff_left fun hin ↦ ?_
  rw [hx.map_eq] at hin
  have hpage := hx.confined.region hv halign (s.bdata.map + p / 8) (by omega) (by omega)
  exact hmap _ hpage ⟨p, hp, rfl⟩

-- In a page that a live region shares with the new one, the live region comes first.
theorem Tied.lt_of_same_page (hx : Tied s x) (hv : ViableStart x.state size align start.toNat)
    (halign : align.toNat.isPowerOfTwo) {r : Region} (hr : r ∈ x.live) {a b : Nat}
    (ha : a ∈ r.bytes) (hlo : regionAddr x.state.bdata align start ≤ b)
    (hhi : b < regionEnd x.state.bdata size align start) (hpage : a / 4096 = b / 4096) :
    a < b := by
  have hle := pagesBelow_regionEnd_le size start hx.confined.zeroNode hx.confined.tail (Or.inl halign)
  rcases page_of_region hx.confined.zeroNode hx.confined.tail b hlo hhi with
    ⟨hge, hlt⟩ | ⟨hoff, hlast, htail⟩
  · -- the page was free, but live regions touch reserved pages only
    have hfree := hv.2.2 _ hge (by omega)
    rw [(hx.sound.pages r hr _ ⟨a, ha, hpage⟩).2] at hfree
    contradiction
  · -- the shared page is the last one, and the new region begins at its open tail or above
    have hopen := hx.tail_open hoff r hr a ha (hpage.trans hlast)
    have := Align.le_roundUp x.state.bdata.lastOffset.toNat (Nat.pos_of_isPowerOfTwo halign)
    omega

theorem dvd_regionAddr {b : BootmemData} (halign : align.toNat.isPowerOfTwo)
    (hstart : max (align.toNat / 4096) 1 ∣ start.toNat) :
    align.toNat ∣ regionAddr b align start := by
  unfold regionAddr
  split
  next hmerge =>
    -- a merged region begins at a multiple of the alignment in its page
    have hlt := hmerge.1
    rw [BitVec.lt_def, toNat_pageSize] at hlt
    exact Nat.dvd_add (Dvd.dvd.mul_left (dvd_page_of_lt halign hlt) _) (Align.dvd_roundUp _ _)
  next => exact dvd_of_stride_dvd halign hstart

-- A page that the new region touches is one the node could give away, and is reserved now.
theorem Tied.pages_alloc (hx : Tied s x) (hmap : ∀ p ∈ nodeFree s, ¬ HoldsBitmap s.bdata p)
    (hv : ViableStart x.state size align start.toNat) (halign : AlignOk align) {a : Nat}
    (hlo : regionAddr x.state.bdata align start ≤ a)
    (hhi : a < regionEnd x.state.bdata size align start) :
    s.busy (a / 4096) = false ∧ (allocEffect x.state size align start).busy (a / 4096) = true := by
  have hfree := hx.confined.region hv halign a hlo hhi
  refine ⟨hfree.2, (hx.busy_alloc hmap hv halign hfree.1).mpr ?_⟩
  rcases page_of_region hx.confined.zeroNode hx.confined.tail a hlo hhi with hnew | ⟨hoff, hlast, -⟩
  · exact Or.inr hnew
  · rw [hlast]
    exact Or.inl (hx.last_busy hoff)

theorem Tied.liveSound_alloc (hx : Tied s x) (hmap : ∀ p ∈ nodeFree s, ¬ HoldsBitmap s.bdata p)
    (hreq : Admissible size align) (hv : ViableStart x.state size align start.toNat) :
    LiveSound s ⟨allocEffect x.state size align start,
      newRegion x.state.bdata size align start :: x.live⟩ := by
  have halign : AlignOk align := Or.inl hreq.align_pow
  have hmem := fun {a} ↦ mem_bytes_newRegion (a := a) hx.confined.zeroNode hx.confined.tail halign
    hv.2.1
  have haddr := toNat_addr_newRegion hx.confined.zeroNode hx.confined.tail halign hv.2.1
  constructor
  · -- a byte in common would have to lie below itself
    refine List.Pairwise.cons (fun r hr a ha har ↦ ?_) hx.sound.disjoint
    rw [hmem] at ha
    exact lt_irrefl a (hx.lt_of_same_page hv hreq.align_pow hr har ha.1 ha.2 rfl)
  · intro r hr
    rcases List.mem_cons.mp hr with rfl | hr
    · have hle := pagesBelow_regionEnd_le size start hx.confined.zeroNode hx.confined.tail halign
      have hfit := hv.2.1
      rw [hx.nodeLowPfn_eq] at hfit
      rw [haddr]
      change regionEnd x.state.bdata size align start ≤ _
      unfold pagesBelow at hle
      omega
    · exact hx.sound.inside r hr
  · intro r hr
    rcases List.mem_cons.mp hr with rfl | hr
    · rw [haddr]
      exact dvd_regionAddr hreq.align_pow hv.1
    · exact hx.sound.aligned r hr
  · rintro r hr p ⟨a, ha, rfl⟩
    rcases List.mem_cons.mp hr with rfl | hr
    · rw [hmem] at ha
      exact hx.pages_alloc hmap hv halign ha.1 ha.2
    · have hold := hx.sound.pages r hr _ ⟨a, ha, rfl⟩
      have hlt := (hx.touches r hr _ ⟨a, ha, rfl⟩).1
      exact ⟨hold.1, (hx.busy_alloc hmap hv halign hlt).mpr (Or.inl hold.2)⟩

theorem Tied.alloc (hx : Tied s x) (hmap : ∀ p ∈ nodeFree s, ¬ HoldsBitmap s.bdata p)
    (hreq : Admissible size align) (hv : ViableStart x.state size align start.toNat) :
    Tied s ⟨allocEffect x.state size align start,
      newRegion x.state.bdata size align start :: x.live⟩ := by
  have halign : AlignOk align := Or.inl hreq.align_pow
  have hsize := hreq.size_pos
  -- the last page is the page of the region's last byte
  have hlast : (allocEffect x.state size align start).bdata.lastPos.toNat =
      (regionEnd x.state.bdata size align start - 1) / 4096 := by
    change (nextHints x.state.bdata size align start).lastPos.toNat = _
    rw [toNat_lastPos_nextHints hx.confined.zeroNode hx.confined.tail halign hsize hv.2.1]
    unfold pagesBelow regionEnd
    omega
  have hlo : regionAddr x.state.bdata align start ≤ regionEnd x.state.bdata size align start - 1 := by
    unfold regionEnd
    omega
  have hhi : regionEnd x.state.bdata size align start - 1 <
      regionEnd x.state.bdata size align start := by
    unfold regionEnd
    omega
  constructor
  · exact hx.toRunConfined.alloc (bitmapClosed_nodeFree hmap) hsize halign hv
  · exact hx.liveSound_alloc hmap hreq hv
  · intro r hr
    rcases List.mem_cons.mp hr with rfl | hr
    · exact hsize
    · exact hx.size_pos r hr
  · intro _
    rw [hlast]
    exact (hx.pages_alloc hmap hv halign hlo hhi).2
  · intro hne r hr a ha hpage
    have hoff : (allocEffect x.state size align start).bdata.lastOffset.toNat =
        regionEnd x.state.bdata size align start % 4096 := toNat_lastOffset_nextHints
    have hpos : regionEnd x.state.bdata size align start % 4096 ≠ 0 :=
      fun hz ↦ hne (BitVec.eq_of_toNat_eq (hoff.trans hz))
    dsimp only at hpage ⊢
    rw [hlast] at hpage ⊢
    rw [hoff]
    -- all of the page that is in use ends with the new region
    have hbelow : a < regionEnd x.state.bdata size align start := by
      rcases List.mem_cons.mp hr with rfl | hr
      · rw [mem_bytes_newRegion hx.confined.zeroNode hx.confined.tail halign hv.2.1] at ha
        exact ha.2
      · exact (hx.lt_of_same_page hv hreq.align_pow hr ha hlo hhi hpage).trans hhi
    omega

theorem Tied.allocStep {ALIGN : Word → Word → Word} {y : BootRun} (hA : AlignSpec ALIGN)
    (hx : Tied s x) (hmap : ∀ p ∈ nodeFree s, ¬ HoldsBitmap s.bdata p)
    (hreq : Admissible size align) (h : AllocStep ALIGN size align x y) : Tied s y := by
  rcases h.cases hA hx.confined.zeroNode hx.confined.tail hreq.size_le with
    rfl | ⟨start, -, -, hv, rfl⟩
  · exact hx
  · exact hx.alloc hmap hreq hv

end

/-! ## A free -/

section

variable {s : BootState} {x : BootRun} {r : Region}

theorem disjoint_symm {r r' : Region} (h : r.Disjoint r') : r'.Disjoint r :=
  fun a ha ha' ↦ h a ha' ha

-- The regions left are disjoint from the one given back.
theorem Tied.disjoint_erase (hx : Tied s x) (hr : r ∈ x.live) :
    ∀ r' ∈ x.live.erase r, r.Disjoint r' := by
  have hperm := (List.perm_cons_erase hr).pairwise hx.sound.disjoint disjoint_symm
  exact (List.pairwise_cons.mp hperm).1

-- Only pages that lie wholly in the region become free.
theorem Tied.free_cases (hx : Tied s x) (hr : r ∈ x.live) {p : Nat}
    (hp : (freeBootmem r.addr r.size x.state).busy p = false) :
    x.state.busy p = false ∨ r.addr.toNat ≤ p * 4096 ∧ (p + 1) * 4096 ≤ r.addr.toNat + r.size.toNat := by
  have hlow := hx.confined.node.toNat_nodeLowPfn_le
  have hin := hx.sound.inside r hr
  rw [hx.nodeLowPfn_eq] at hlow
  have hmem : p ∈ (freeBootmem r.addr r.size x.state).freePages := hp
  rw [freePages_freeBootmem hx.confined.node.nodeBootStart (by omega)
    (by rw [hx.nodeLowPfn_eq]; omega), Sweep.mem_sweepOne_iff, Range.mem_iff] at hmem
  rcases hmem with hold | ⟨⟨hlo, hhi⟩, -⟩
  · exact Or.inl hold
  · right
    dsimp only at hlo hhi
    omega

-- A page that another live region or the open tail needs stays reserved.
theorem Tied.busy_free (hx : Tied s x) (hr : r ∈ x.live) {p a : Nat} (hp : x.state.busy p = true)
    (hpage : a / 4096 = p) (ha : a ∉ r.bytes) :
    (freeBootmem r.addr r.size x.state).busy p = true := by
  by_contra hfree
  rcases hx.free_cases hr (Bool.eq_false_iff.mpr hfree) with hold | hwhole
  · rw [hp] at hold
    contradiction
  · apply ha
    rw [Region.bytes, Range.mem_iff]
    dsimp only
    omega

theorem Tied.confined_free (hx : Tied s x) (hr : r ∈ x.live) :
    Confined (nodeFree s) (freeBootmem r.addr r.size x.state) := by
  obtain ⟨hboot, hnode, hoff, hlast⟩ := hints_freeBootmem r.addr r.size x.state
  constructor
  · exact ⟨hboot.trans hx.confined.node.nodeBootStart, by
      rw [hnode]
      exact hx.confined.node.nodeLowPfn⟩
  · exact ⟨by rw [hoff]; exact hx.confined.tail.lastOffset_lt, by
      rw [hoff, hlast, hnode]
      exact hx.confined.tail.lastPos_lt⟩
  · -- a page freed now was handed out with the region, so it was free at the start
    intro p hp hfree
    rcases hx.free_cases hr hfree with hold | hwhole
    · exact hx.confined.free p (by rwa [hnode] at hp) hold
    · refine hx.touches r hr p ⟨p * 4096, ?_, by omega⟩
      rw [Region.bytes, Range.mem_iff]
      dsimp only
      omega
  · rw [hoff, hlast]
    exact hx.confined.last

theorem Tied.free (hx : Tied s x) (hr : r ∈ x.live) :
    Tied s ⟨freeBootmem r.addr r.size x.state, x.live.erase r⟩ := by
  obtain ⟨-, hnode, hoff, hlast⟩ := hints_freeBootmem r.addr r.size x.state
  have hsub : ∀ r' ∈ x.live.erase r, r' ∈ x.live := fun _ hr' ↦ List.mem_of_mem_erase hr'
  constructor
  · exact ⟨hx.confined_free hr, (freeBootmem_map _ _ _).trans hx.map_eq,
      hnode.trans hx.nodeLowPfn_eq, fun r' hr' ↦ hx.touches r' (hsub r' hr')⟩
  · constructor
    · exact hx.sound.disjoint.sublist List.erase_sublist
    · exact fun r' hr' ↦ hx.sound.inside r' (hsub r' hr')
    · exact fun r' hr' ↦ hx.sound.aligned r' (hsub r' hr')
    · rintro r' hr' p ⟨a, ha, rfl⟩
      have hold := hx.sound.pages r' (hsub r' hr') _ ⟨a, ha, rfl⟩
      refine ⟨hold.1, hx.busy_free hr hold.2 rfl fun har ↦ ?_⟩
      exact hx.disjoint_erase hr r' hr' a har ha
  · exact fun r' hr' ↦ hx.size_pos r' (hsub r' hr')
  · dsimp only
    rw [hoff, hlast]
    intro hne
    have hlt := hx.confined.tail.lastOffset_lt
    -- the last byte of the page is in the open tail
    refine hx.busy_free (a := x.state.bdata.lastPos.toNat * 4096 + 4095) hr (hx.last_busy hne)
      (by omega) fun ha ↦ ?_
    have := hx.tail_open hne r hr _ ha (by omega)
    omega
  · dsimp only
    rw [hoff, hlast]
    exact fun hne r' hr' ↦ hx.tail_open hne r' (hsub r' hr')

end

/-! ## Runs -/

theorem tied_of_reachable {ALIGN : Word → Word → Word} {s : BootState} {x : BootRun}
    (hA : AlignSpec ALIGN) (hs : Shaped s) (hmap : ∀ p ∈ nodeFree s, ¬ HoldsBitmap s.bdata p)
    (hx : Transition.Reachable (allocFreeRuns ALIGN s) x) : Tied s x := by
  have hinv : Transition.Invariant (allocFreeRuns ALIGN s) (Tied s) := by
    constructor
    · rintro x rfl
      exact tied_init hs
    · rintro x y hx (⟨size, align, hreq, h⟩ | ⟨r, hr, rfl⟩)
      · exact hx.allocStep hA hmap hreq h
      · exact hx.free hr
  exact hinv.of_reachable hx

/-- **Soundness.**  When no page that is free at the start holds a part of the bitmap, live regions
stay apart in every run, and no call ends in `BUG()`. -/
theorem sound_of_bitmap_reserved {ALIGN : Word → Word → Word} {s : BootState}
    (hA : AlignSpec ALIGN) (hs : Shaped s)
    (hmap : ∀ p ∈ nodeFree s, ¬ HoldsBitmap s.bdata p) : Sound ALIGN s := by
  intro x hx
  have htied := tied_of_reachable hA hs hmap hx
  refine ⟨htied.sound, fun size align goal hreq ↦ ?_⟩
  rcases allocBootmemCore_cases goal hA htied.confined.zeroNode htied.confined.tail hreq.size_pos
    hreq.size_le (Or.inl hreq.align_pow) with hnull | ⟨start, -, -, hfound⟩
  · exact ⟨_, hnull⟩
  · exact ⟨_, hfound⟩

/-- A node of `page` free pages with its bitmap in page `start`. -/
def openNode (start page : Word) : BootState :=
  freeBootmem 0#32 (pfnPhys page) (initBootmem start page (bootImage fun _ ↦ false)).2

theorem shaped_openNode {start page : Word} (h : page ≤ maxmemPfn) : Shaped (openNode start page) :=
  .free _ _ _ (.init _ _ _ h rfl rfl rfl)

theorem openNode_not_holdsBitmap :
    ∀ p ∈ nodeFree (openNode 100#32 8#32), ¬ HoldsBitmap (openNode 100#32 8#32).bdata p := by
  intro p ⟨hp, _⟩ ⟨q, hq, hpage⟩
  have hmap : (openNode 100#32 8#32).bdata.map = 409600 := by decide
  have hnode : (openNode 100#32 8#32).bdata.nodeLowPfn.toNat = 8 := by decide
  omega

-- With the bitmap outside the node nothing can go wrong.
theorem sound_openNode : Sound alignMask (openNode 100#32 8#32) :=
  sound_of_bitmap_reserved alignMask_spec (shaped_openNode (by decide)) openNode_not_holdsBitmap

/-- With the bitmap in page 1, and page 1 free, the `memset` of a first call for two pages clears
the bits it has just set, and the next call is given page 0 again. -/
theorem openNode_not_sound : ¬ Sound alignMask (openNode 1#32 8#32) := by
  intro h
  let first : BootRun := ⟨openNode 1#32 8#32, []⟩
  let second : BootRun := ⟨allocEffect first.state (pfnPhys 2#32) 1#32 0#32,
    newRegion first.state.bdata (pfnPhys 2#32) 1#32 0#32 :: first.live⟩
  have hreq : ∀ size : Word, 1 ≤ size.toNat → size.toNat ≤ 2 ^ 32 - 4096 → Admissible size 1#32 :=
    fun _ hpos hle ↦ ⟨hpos, hle, Nat.isPowerOfTwo_one⟩
  have hone : AlignOk 1#32 := Or.inl Nat.isPowerOfTwo_one
  have hscan : findStart alignMask first.state (pfnPhys 2#32) 1#32 0#32 = .found 0#32 := by
    decide +kernel
  have hscan' : findStart alignMask second.state (pfnPhys 1#32) 1#32 0#32 = .found 0#32 := by
    decide +kernel
  have hcall := allocStep_of_found (x := first) alignMask_spec ⟨by decide, by decide⟩
    ⟨by decide, by decide⟩ (by decide) (by decide) hone hscan
  have hcall' := allocStep_of_found (x := second) alignMask_spec ⟨by decide, by decide⟩
    ⟨by decide, by decide⟩ (by decide) (by decide) hone hscan'
  have hreach := Transition.Reachable.step (S := allocFreeRuns alignMask (openNode 1#32 8#32))
    (.step (.init rfl) (Or.inl ⟨_, _, hreq _ (by decide) (by decide), hcall⟩))
    (Or.inl ⟨_, _, hreq _ (by decide) (by decide), hcall'⟩)
  have hdisjoint := (List.pairwise_cons.mp (h _ hreach).1.disjoint).1 _ List.mem_cons_self
  exact hdisjoint 0 (by decide) (by decide)

end AphroditeOs
