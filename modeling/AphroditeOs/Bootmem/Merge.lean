import AphroditeOs.Bootmem.Calls
import AphroditeOs.Bootmem.Soundness

/-!
# Merging with the last page

`free_bootmem` leaves `last_pos` and `last_offset` as they are, and the merge path takes the tail of
page `last_pos` without a look at its bit.  A region may so begin in a page that is free.
-/

namespace AphroditeOs

/-- The area for page `start` touches page `p`. -/
def AreaTouches (b : BootmemData) (size align start : Word) (p : Nat) : Prop :=
  regionAddr b align start / 4096 ≤ p ∧ p * 4096 < regionEnd b size align start

/-- The bit of page `p` lies in the area for page `start`. -/
def AreaHoldsBit (b : BootmemData) (size align start : Word) (p : Nat) : Prop :=
  regionAddr b align start ≤ b.map + p / 8 ∧ b.map + p / 8 < regionEnd b size align start

/-- After a non-`NULL` allocation all pages that the returned region touches are reserved. -/
def ReservesTouched (ALIGN : Word → Word → Word) (s : BootState) : BootCall → Prop
  | .alloc size align goal => ∀ ret t,
      allocBootmemCore ALIGN size align goal s = .ok (some ret, t) →
        ∀ p, (Region.mk (pa ret) size align).Touches p → t.busy p = true
  | .free _ _ => True
  | .reserve _ _ => True

/-- The page that an allocation would share with the last one is reserved, and the area is not
placed over the bits of its own pages. -/
def MergeOk (s : BootState) : BootCall → Prop
  | .alloc size align goal => ∀ start : Word, SettlesOn s size align goal start.toNat →
      (UsesLastPage s.bdata align start → s.busy s.bdata.lastPos.toNat = true) ∧
        ∀ p, AreaTouches s.bdata size align start p → ¬ AreaHoldsBit s.bdata size align start p
  | .free _ _ => True
  | .reserve _ _ => True

/-- Allocations as they may be, and frees of whole pages of a node of `limit` pages. -/
def BootCall.Paged (limit : Nat) : BootCall → Prop
  | .alloc size align _ => Admissible size align
  | .free addr size => 4096 ∣ addr.toNat ∧ 4096 ∣ size.toNat ∧
      addr.toNat + size.toNat ≤ limit * 4096
  | .reserve _ _ => False

theorem BootCall.Paged.ok {c : BootCall} {limit : Nat} (h : c.Paged limit) : c.Ok := by
  cases c with
  | alloc size align goal => exact h
  | free addr size => trivial
  | reserve addr size => trivial

/-! ## The pages of an area -/

section

variable {b : BootmemData} {size align start : Word} {p : Nat}

/-- An area touches its new pages, and page `last_pos` when it begins there. -/
theorem areaTouches_iff (start : Word) (p : Nat) (hnode : ZeroNode b) (htail : TailOk b)
    (halign : AlignOk align) (hsize : 1 ≤ size.toNat) :
    AreaTouches b size align start p ↔
      (start.toNat ≤ p ∧ p < pagesBelow (regionEnd b size align start)) ∨
        UsesLastPage b align start ∧ p = b.lastPos.toNat := by
  have hbelow : p * 4096 < regionEnd b size align start ↔
      p < pagesBelow (regionEnd b size align start) := by
    unfold pagesBelow
    omega
  unfold AreaTouches
  rw [hbelow]
  by_cases h : UsesLastPage b align start
  · have hstart := h.start_eq hnode htail
    have hlt := h.2.2.2
    have hend : b.lastPos.toNat < pagesBelow (regionEnd b size align start) := by
      unfold pagesBelow regionEnd
      rw [h.regionAddr_eq]
      omega
    rw [h.regionAddr_eq, and_iff_right h]
    omega
  · rw [regionAddr_of_not_usesLastPage hnode htail halign h, Nat.mul_div_cancel _ (by decide)]
    exact ⟨Or.inl, fun hp ↦ hp.resolve_right fun hlast ↦ h hlast.1⟩

end

/-! ## One allocation -/

section

variable {ALIGN : Word → Word → Word} {s : BootState} {size align goal start : Word}

/-- The pages that a new area touches are all reserved exactly when page `last_pos` is, if the area
begins there, and the `memset` misses their bits. -/
theorem busy_touched_iff (start : Word) (hnode : ZeroNode s.bdata) (htail : TailOk s.bdata)
    (halign : AlignOk align) (hsize : 1 ≤ size.toNat) :
    (∀ p, AreaTouches s.bdata size align start p →
        (allocEffect s size align start).busy p = true) ↔
      (UsesLastPage s.bdata align start → s.busy s.bdata.lastPos.toNat = true) ∧
        ∀ p, AreaTouches s.bdata size align start p → ¬ AreaHoldsBit s.bdata size align start p := by
  have hbit : ∀ p, (allocEffect s size align start).busy p = true ↔
      (s.busy p = true ∨ start.toNat ≤ p ∧ p < pagesBelow (regionEnd s.bdata size align start)) ∧
        ¬ AreaHoldsBit s.bdata size align start p := by
    intro p
    rw [busy_allocEffect]
    unfold AreaHoldsBit
    apply and_congr_right'
    omega
  have htouch := fun p ↦ areaTouches_iff start p hnode htail halign hsize
  constructor
  · intro hall
    refine ⟨fun huses ↦ ?_, fun p hp ↦ ((hbit p).mp (hall p hp)).2⟩
    have hlast := (hbit _).mp (hall _ ((htouch _).mpr (Or.inr ⟨huses, rfl⟩)))
    have hstart := huses.start_eq hnode htail
    exact hlast.1.resolve_right (by omega)
  · rintro ⟨hlast, hmiss⟩ p hp
    refine (hbit p).mpr ⟨?_, hmiss p hp⟩
    rcases (htouch p).mp hp with hnew | ⟨huses, rfl⟩
    · exact Or.inr hnew
    · exact Or.inl (hlast huses)

theorem touches_newRegion_iff (hnode : ZeroNode s.bdata) (htail : TailOk s.bdata)
    (halign : AlignOk align) (hsize : 1 ≤ size.toNat)
    (hfit : start.toNat + (size.toNat + 4095) / 4096 ≤ s.bdata.nodeLowPfn.toNat) {p : Nat} :
    (newRegion s.bdata size align start).Touches p ↔ AreaTouches s.bdata size align start p := by
  unfold Region.Touches AreaTouches
  simp only [mem_bytes_newRegion hnode htail halign hfit]
  constructor
  · rintro ⟨a, ⟨hlo, hhi⟩, rfl⟩
    omega
  · rintro ⟨hlo, hhi⟩
    -- the first byte of the area in the page
    refine ⟨max (regionAddr s.bdata align start) (p * 4096), ?_, ?_⟩
    · unfold regionEnd at hhi ⊢
      omega
    · omega

/-- One allocation, in a state whose hints are in order. -/
theorem reservesTouched_iff (hA : AlignSpec ALIGN) (hs : NodeOk s.bdata) {c : BootCall}
    (hc : c.Ok) : ReservesTouched ALIGN s c ↔ MergeOk s c := by
  cases c with
  | free addr size => exact Iff.rfl
  | reserve addr size => exact Iff.rfl
  | alloc size align goal =>
    have halign : AlignOk align := Or.inl hc.align_pow
    simp only [ReservesTouched, MergeOk]
    rcases allocBootmemCore_settles goal hA hs.toZeroNode hs.toTailOk hc with
      ⟨hnone, hnull⟩ | ⟨start, hsettles, hv, hfound⟩
    · rw [hnull]
      refine iff_of_true (fun ret t heq ↦ ?_) fun start hstart ↦ absurd hstart (hnone _)
      cases heq
    · have hmine : ∀ start', SettlesOn s size align goal start'.toNat → start' = start :=
        fun start' hstart' ↦ BitVec.eq_of_toNat_eq (hstart'.eq hsettles)
      have hregion : ∀ p, (Region.mk (pa (va (BitVec.ofNat 32 (regionAddr s.bdata align start))))
          size align).Touches p ↔ AreaTouches s.bdata size align start p := by
        intro p
        rw [pa_va]
        exact touches_newRegion_iff hs.toZeroNode hs.toTailOk halign hc.size_pos hv.2.1
      have hbusy := busy_touched_iff start hs.toZeroNode hs.toTailOk halign hc.size_pos
      rw [hfound]
      constructor
      · intro h start' hstart'
        rw [hmine start' hstart', ← hbusy]
        exact fun p hp ↦ h _ _ rfl p ((hregion p).mpr hp)
      · intro h ret t heq p hp
        obtain ⟨hret, ht⟩ := Prod.mk.inj (Except.ok.inj heq)
        rw [← Option.some.inj hret] at hp
        rw [← ht]
        exact hbusy.mpr (h start hsettles) p ((hregion p).mp hp)

end

/-! ## Runs -/

/-- **Merging.**  In a run of allocations and frees of whole pages, the pages of every region are
reserved right after the region is handed out exactly when every allocation meets `MergeOk`. -/
theorem merge_reserved_iff {ALIGN : Word → Word → Word} {start page : Word} {s : BootState}
    {calls : List BootCall} (hA : AlignSpec ALIGN) (hpage : page.toNat ≤ 2 ^ 18)
    (hs : FreshHints s.bdata) (hcalls : ∀ c ∈ calls, c.Paged page.toNat) :
    (∃ t, calls.foldlM (bootStep ALIGN) (initBootmem start page s).2 = some t) ∧
    (Transition.AtEvents (bootStep ALIGN) (ReservesTouched ALIGN) (initBootmem start page s).2
        calls ↔
      Transition.AtEvents (bootStep ALIGN) MergeOk (initBootmem start page s).2 calls) := by
  obtain ⟨t, ht, -⟩ := nodeOk_of_calls start hA hpage hs fun c hc ↦ (hcalls c hc).ok.passes
  refine ⟨⟨t, ht⟩, ?_⟩
  apply Transition.atEvents_congr (I := fun t ↦ NodeOk t.bdata)
  · exact fun c hc t ht ↦ ht.step hA (hcalls c hc).ok.passes
  · exact nodeOk_initBootmem hpage hs
  · exact fun c hc t ht ↦ reservesTouched_iff hA ht (hcalls c hc).ok

theorem nodeOk_openNode {start page : Word} (hpage : page.toNat ≤ 2 ^ 18) :
    NodeOk (openNode start page).bdata :=
  nodeOk_freeBootmem (nodeOk_initBootmem hpage (freshHints_bootImage _)) _ _

-- All pages freed, and then one call.
theorem openNode_run {ALIGN : Word → Word → Word} {start page size align goal area : Word}
    (hA : AlignSpec ALIGN) (hpage : page.toNat ≤ 2 ^ 18) (h : Admissible size align)
    (hfound : findStart ALIGN (openNode start page) size align goal = .found area) :
    [BootCall.free 0#32 (pfnPhys page), .alloc size align goal].foldlM (bootStep ALIGN)
      (initBootmem start page (bootImage fun _ ↦ false)).2 =
        some (allocEffect (openNode start page) size align area) := by
  have hfree : bootStep ALIGN (initBootmem start page (bootImage fun _ ↦ false)).2
      (.free 0#32 (pfnPhys page)) = some (openNode start page) := rfl
  have halloc := bootStep_alloc_of_found hA (nodeOk_openNode hpage) h hfound
  simp only [List.foldlM_cons, hfree, halloc, Option.bind_eq_bind, Option.bind_some,
    List.foldlM_nil]
  rfl

/-- Page 0 is handed out in part and freed again, and then page 1 is asked for. -/
def staleCalls : List BootCall :=
  [.free 0#32 (pfnPhys 8#32), .alloc 100#32 64#32 0#32, .free 0#32 pageSize,
    .alloc 100#32 64#32 pageSize]

-- An area below the bitmap is not over any bit.
theorem not_areaHoldsBit_of_le {b : BootmemData} {size align start : Word} (hnode : ZeroNode b)
    (htail : TailOk b) (halign : AlignOk align) (hfit : start.toNat * 4096 + size.toNat ≤ b.map)
    (p : Nat) : ¬ AreaHoldsBit b size align start p := by
  rintro ⟨-, hhi⟩
  have hle := (regionAddr_bounds start hnode htail halign).1
  unfold regionEnd at hhi
  omega

-- Two regions share page 0.
theorem merge_reserved_shared :
    Transition.AtEvents (bootStep alignMask) (ReservesTouched alignMask)
        (initBootmem 100#32 8#32 (bootImage fun _ ↦ false)).2
        [.free 0#32 (pfnPhys 8#32), .alloc 100#32 64#32 0#32, .alloc 100#32 64#32 0#32] ∧
      UsesLastPage (allocEffect (openNode 100#32 8#32) 100#32 64#32 0#32).bdata 64#32 1#32 := by
  have hreq : Admissible 100#32 64#32 := ⟨by decide, by decide, ⟨6, rfl⟩⟩
  have halign : AlignOk 64#32 := Or.inl ⟨6, rfl⟩
  refine ⟨(merge_reserved_iff alignMask_spec (by decide) (freshHints_bootImage _) ?_).2.mpr ?_,
    by decide, by decide, by decide, by decide⟩
  · simp only [List.forall_mem_cons, List.not_mem_nil, false_implies, implies_true, and_true]
    exact ⟨⟨by decide, by decide, by decide⟩, hreq, hreq⟩
  -- the bitmap lies above the node, and page 0 is reserved once a region begins in it
  have hok : ∀ t : BootState, ZeroNode t.bdata → TailOk t.bdata → t.bdata.nodeLowPfn = 8#32 →
      t.bdata.map = 409600 → (t.bdata.lastOffset ≠ 0#32 → t.busy t.bdata.lastPos.toNat = true) →
        MergeOk t (.alloc 100#32 64#32 0#32) := by
    intro t hnode htail hpages hmap hlast start hstart
    have hfit : start.toNat + 1 ≤ t.bdata.nodeLowPfn.toNat := hstart.viable.2.1
    rw [hpages] at hfit
    have hroom : start.toNat * 4096 + (100#32 : Word).toNat ≤ t.bdata.map := by
      rw [hmap]
      have hlt : start.toNat + 1 ≤ 8 := hfit
      show start.toNat * 4096 + 100 ≤ 409600
      omega
    exact ⟨fun huses ↦ hlast huses.2.1,
      fun p _ ↦ not_areaHoldsBit_of_le hnode htail halign hroom p⟩
  intro pre c post t hsplit ht
  rcases List.cons_eq_append_iff.mp hsplit with ⟨rfl, hc⟩ | ⟨pre, rfl, hrest⟩
  · obtain rfl := (List.cons.inj hc).1
    trivial
  rcases List.cons_eq_append_iff.mp hrest with ⟨rfl, hc⟩ | ⟨pre, rfl, hlast⟩
  · obtain rfl := (List.cons.inj hc).1
    obtain rfl := Option.some.inj ht
    exact hok _ ⟨by decide, by decide⟩ ⟨by decide, by decide⟩ (by decide) (by decide)
      fun hne ↦ absurd (by decide) hne
  rcases List.cons_eq_append_iff.mp hlast with ⟨rfl, hc⟩ | ⟨pre, rfl, hnil⟩
  · obtain rfl := (List.cons.inj hc).1
    have hscan : findStart alignMask (openNode 100#32 8#32) 100#32 64#32 0#32 = .found 0#32 := by
      decide +kernel
    have hone := openNode_run alignMask_spec (by decide) hreq hscan
    obtain rfl := Option.some.inj (hone.symm.trans ht)
    exact hok _ ⟨by decide, by decide⟩ ⟨by decide, by decide⟩ (by decide) (by decide)
      fun _ ↦ by decide +kernel
  · simp at hnil

/-- The last of the calls is given 128, in page 0, which is free. -/
theorem staleCalls_use_freed_page :
    (∀ c ∈ staleCalls, c.Paged 8) ∧
      ¬ Transition.AtEvents (bootStep alignMask) (ReservesTouched alignMask)
        (initBootmem 100#32 8#32 (bootImage fun _ ↦ false)).2 staleCalls := by
  have hreq : Admissible 100#32 64#32 := ⟨by decide, by decide, ⟨6, rfl⟩⟩
  constructor
  · unfold staleCalls
    simp only [List.forall_mem_cons, List.not_mem_nil, false_implies, implies_true, and_true]
    exact ⟨⟨by decide, by decide, by decide⟩, hreq, ⟨by decide, by decide, by decide⟩, hreq⟩
  intro h
  let one := allocEffect (openNode 100#32 8#32) 100#32 64#32 0#32
  let two := freeBootmem 0#32 pageSize one
  have hone : [BootCall.free 0#32 (pfnPhys 8#32), .alloc 100#32 64#32 0#32].foldlM
      (bootStep alignMask) (initBootmem 100#32 8#32 (bootImage fun _ ↦ false)).2 = some one :=
    openNode_run alignMask_spec (by decide) hreq (by decide +kernel)
  have hrun : ([BootCall.free 0#32 (pfnPhys 8#32), .alloc 100#32 64#32 0#32] ++
      [BootCall.free 0#32 pageSize]).foldlM (bootStep alignMask)
        (initBootmem 100#32 8#32 (bootImage fun _ ↦ false)).2 = some two := by
    rw [List.foldlM_append, hone]
    rfl
  have hscan : findStart alignMask two 100#32 64#32 pageSize = .found 1#32 := by decide +kernel
  have hcall := allocBootmemCore_of_found alignMask_spec (show ZeroNode two.bdata from
    ⟨by decide, by decide⟩) ⟨by decide, by decide⟩ (by decide) (by decide)
    (Or.inl ⟨6, rfl⟩) hscan
  have hbusy := h _ (.alloc 100#32 64#32 pageSize) [] two rfl hrun _ _ hcall 0
    ⟨128, by decide +kernel, by decide⟩
  revert hbusy
  decide +kernel

end AphroditeOs
