import AphroditeOs.Bootmem.Merge

/-!
# Requests without an alignment

An alignment of 0 passes the check at the head of the call.  The masks then degenerate: a goal has
no effect, and a merged area begins with its page instead of the tail of it.
-/

namespace AphroditeOs

/-- The page the first scan begins at for requests that are aligned to single bytes. -/
def bytePage (b : BootmemData) (goal : Word) : Nat :=
  if goal ≠ 0#32 ∧ goal >>> pageShift < b.nodeLowPfn then
    max goal.toNat b.lastSuccess.toNat / 4096
  else 0

/-- The call for an alignment of 0 and the one for an alignment of 1 return the same pointer, and
leave the same bitmap and the same end of the last area. -/
def SameCall (ALIGN : Word → Word → Word) (s : BootState) (size goal : Word) : Prop :=
  ∃ r t t', allocBootmemCore ALIGN size 0#32 goal s = .ok (r, t) ∧
    allocBootmemCore ALIGN size 1#32 goal s = .ok (r, t') ∧ (∀ p, t.busy p = t'.busy p) ∧
    t.bdata.lastPos = t'.bdata.lastPos ∧ t.bdata.lastOffset = t'.bdata.lastOffset

/-- The node has no room, or its first room is what the goal asks for too, and does not follow the
page the last area ends in. -/
def FirstRoomFresh (s : BootState) (size goal : Word) : Prop :=
  freeRuns s size = ∅ ∨ ∃ p, IsLeast (freeRuns s size) p ∧
    (bytePage s.bdata goal ≤ p ∨ ∀ q ∈ freeRuns s size, q < bytePage s.bdata goal) ∧
    ¬ (s.bdata.lastOffset ≠ 0#32 ∧ s.bdata.lastPos.toNat + 1 = p)

/-- The region returned for an alignment of 0 shares no byte with a live one. -/
def KeepsApart (ALIGN : Word → Word → Word) (x : BootRun) (size goal : Word) : Prop :=
  ∀ ret t, allocBootmemCore ALIGN size 0#32 goal x.state = .ok (some ret, t) →
    ∀ r ∈ x.live, (Region.mk (pa ret) size 0#32).Disjoint r

section

variable {ALIGN : Word → Word → Word} {s : BootState} {size goal start : Word}

/-! ## The page settled on -/

theorem isPowerOfTwo_toNat_one : (1#32 : Word).toNat.isPowerOfTwo := Nat.isPowerOfTwo_one

theorem alignOk_one : AlignOk 1#32 := Or.inl isPowerOfTwo_toNat_one

theorem alignOk_zero : AlignOk 0#32 := Or.inr rfl

theorem roundUp_toNat_one (x : Nat) : Align.roundUp x (1#32 : Word).toNat = x :=
  Align.roundUp_of_dvd (by decide) (one_dvd x)

theorem roundUp_toNat_zero (x : Nat) : Align.roundUp x (0#32 : Word).toNat = 0 := Nat.mul_zero _

theorem admissible_one (hsize : 1 ≤ size.toNat) (hsize' : size.toNat ≤ 2 ^ 32 - 4096) :
    Admissible size 1#32 := ⟨hsize, hsize', Nat.isPowerOfTwo_one⟩

theorem toNat_preferredPage_one {b : BootmemData} (hnode : IndexedNode b) (goal : Word) :
    (preferredPage b 1#32 goal).toNat = bytePage b goal := by
  unfold bytePage
  by_cases hvalid : goal ≠ 0#32 ∧ goal >>> pageShift < b.nodeLowPfn
  · have hgoal := goal.isLt
    have hlast := b.lastSuccess.isLt
    have hfit : max goal.toNat b.lastSuccess.toNat + (1#32).toNat ≤ 2 ^ 32 :=
      max_lt hgoal hlast
    rw [if_pos hvalid, toNat_preferredPage hnode isPowerOfTwo_toNat_one hvalid.1 hvalid.2 hfit,
      roundUp_toNat_one]
  · have hnone : ¬ (goal ≠ 0#32 ∧ b.nodeBootStart ≤ goal ∧ goal >>> pageShift < b.nodeLowPfn) :=
      fun h ↦ hvalid ⟨h.1, h.2.2⟩
    rw [if_neg hvalid, preferredPage, if_neg hnone, hnode.nodeOffset_eq]
    rfl

-- Without an alignment the goal is masked away, and the stride is one page all the same.
theorem findStart_align_zero (hnode : IndexedNode s.bdata) :
    findStart ALIGN s size 0#32 goal = findStart ALIGN s size 1#32 0#32 := by
  have hzero : preferredPage s.bdata 0#32 goal = 0#32 := by
    rw [preferredPage, hnode.nodeOffset_eq, show ~~~(0#32 - 1#32) = 0#32 from rfl]
    dsimp only
    rw [BitVec.and_zero]
    rfl
  have hscan : ∀ i, restartScan ALIGN s size 0#32 i = restartScan ALIGN s size 1#32 i :=
    fun _ ↦ rfl
  unfold findStart
  rw [hzero, preferredPage_no_goal hnode isPowerOfTwo_toNat_one, hnode.nodeOffset_eq,
    hnode.nodeOffset_eq]
  dsimp only
  rw [hscan]

theorem settlesOn_one_iff (hnode : IndexedNode s.bdata) {p : Nat} :
    SettlesOn s size 1#32 goal p ↔
      IsLeast {q | bytePage s.bdata goal ≤ q ∧ q ∈ freeRuns s size} p ∨
        (∀ q ∈ freeRuns s size, q < bytePage s.bdata goal) ∧ IsLeast (freeRuns s size) p := by
  unfold SettlesOn
  rw [toNat_preferredPage_one hnode, openStarts_of_align_le_page (by decide),
    openStarts_of_align_le_page (by decide), Set.eq_empty_iff_forall_notMem]
  apply or_congr_right
  apply and_congr
  · apply forall_congr'
    intro q
    rw [Set.mem_ofPred_eq, not_and', not_le]
  · simp

-- Both calls settle on the first room of the node exactly when the goal does not ask for more.
theorem settlesOn_least_iff (hnode : IndexedNode s.bdata) {p : Nat}
    (hp : IsLeast (freeRuns s size) p) :
    SettlesOn s size 1#32 goal p ↔
      bytePage s.bdata goal ≤ p ∨ ∀ q ∈ freeRuns s size, q < bytePage s.bdata goal := by
  rw [settlesOn_one_iff hnode, and_iff_left hp]
  apply or_congr_left
  constructor
  · intro h
    exact h.1.1
  · intro hle
    exact ⟨⟨hle, hp.1⟩, fun q hq ↦ hp.2 hq.2⟩

/-! ## The two calls -/

-- Without room neither call returns a region.
theorem null_of_no_room {align : Word} (goal : Word) (hA : AlignSpec ALIGN)
    (hnode : ZeroNode s.bdata) (htail : TailOk s.bdata) (hsize : 1 ≤ size.toNat)
    (hsize' : size.toNat ≤ 2 ^ 32 - 4096) (halign : AlignOk align) (h : freeRuns s size = ∅) :
    allocBootmemCore ALIGN size align goal s = .ok (none, s) := by
  rcases allocBootmemCore_cases goal hA hnode htail hsize hsize' halign with
    hnull | ⟨start, -, hv, -⟩
  · exact hnull
  · have hmem : start.toNat ∈ freeRuns s size := hv.2
    rw [h] at hmem
    contradiction

theorem alloc_align_zero (goal : Word) (hA : AlignSpec ALIGN) (hnode : ZeroNode s.bdata)
    (htail : TailOk s.bdata) (hsize : 1 ≤ size.toNat) (hsize' : size.toNat ≤ 2 ^ 32 - 4096)
    (h : IsLeast (freeRuns s size) start.toNat) :
    allocBootmemCore ALIGN size 0#32 goal s =
      .ok (some (va (BitVec.ofNat 32 (regionAddr s.bdata 0#32 start))),
        allocEffect s size 0#32 start) := by
  apply allocBootmemCore_of_found hA hnode htail hsize hsize' alignOk_zero
  rw [findStart_align_zero hnode.indexed, findStart_found_iff hA hnode.indexed
    (admissible_one hsize hsize'), settlesOn_no_goal hnode.indexed isPowerOfTwo_toNat_one (by decide)]
  exact h

theorem alloc_align_one (hA : AlignSpec ALIGN) (hnode : ZeroNode s.bdata)
    (htail : TailOk s.bdata) (hsize : 1 ≤ size.toNat) (hsize' : size.toNat ≤ 2 ^ 32 - 4096)
    (h : SettlesOn s size 1#32 goal start.toNat) :
    allocBootmemCore ALIGN size 1#32 goal s =
      .ok (some (va (BitVec.ofNat 32 (regionAddr s.bdata 1#32 start))),
        allocEffect s size 1#32 start) := by
  apply allocBootmemCore_of_found hA hnode htail hsize hsize' alignOk_one
  rw [findStart_found_iff hA hnode.indexed (admissible_one hsize hsize')]
  exact h

-- A fresh area is the same for both alignments.
theorem regionAddr_of_fresh {b : BootmemData} (align : Word)
    (h : ¬ (b.lastOffset ≠ 0#32 ∧ b.lastPos + 1#32 = start)) :
    regionAddr b align start = start.toNat * 4096 := by
  unfold regionAddr
  exact if_neg fun hmerge ↦ h hmerge.2

-- The first room of the node is the value of a word.
theorem exists_least_word (hnode : ZeroNode s.bdata) (h : (freeRuns s size).Nonempty) :
    ∃ start : Word, IsLeast (freeRuns s size) start.toNat := by
  have hleast := isLeast_csInf h
  have hlow := hnode.nodeLowPfn
  have hfit := hleast.1.1
  exists BitVec.ofNat 32 (sInf (freeRuns s size))
  rwa [toNat_ofNat_of_lt (by omega)]

theorem toNat_lastPos_add_one {b : BootmemData} (hnode : ZeroNode b) (htail : TailOk b)
    (hoff : b.lastOffset ≠ 0#32) : (b.lastPos + 1#32).toNat = b.lastPos.toNat + 1 := by
  have hlow := hnode.nodeLowPfn
  have hpos := htail.lastPos_lt hoff
  exact toNat_add_one (by omega)

theorem sameCall_of_firstRoomFresh (hA : AlignSpec ALIGN) (hnode : ZeroNode s.bdata)
    (htail : TailOk s.bdata) (hsize : 1 ≤ size.toNat) (hsize' : size.toNat ≤ 2 ^ 32 - 4096)
    (h : FirstRoomFresh s size goal) : SameCall ALIGN s size goal := by
  rcases h with hnone | ⟨p, hp, hgoal, hfresh⟩
  · have hnull := null_of_no_room goal hA hnode htail hsize hsize' alignOk_zero hnone
    have hnull' := null_of_no_room goal hA hnode htail hsize hsize'
      alignOk_one hnone
    exact ⟨none, s, s, hnull, hnull', fun _ ↦ rfl, rfl, rfl⟩
  · have ⟨start, hstart⟩ := exists_least_word hnode ⟨p, hp.1⟩
    have hsame : p = start.toNat := hp.unique hstart
    rw [hsame] at hgoal hfresh
    have hsettles : SettlesOn s size 1#32 goal start.toNat :=
      (settlesOn_least_iff hnode.indexed hstart).mpr hgoal
    have hapart : ¬ (s.bdata.lastOffset ≠ 0#32 ∧ s.bdata.lastPos + 1#32 = start) := by
      intro hmerge
      apply hfresh
      rw [← hmerge.2, toNat_lastPos_add_one hnode htail hmerge.1]
      exact ⟨hmerge.1, rfl⟩
    have haddr := regionAddr_of_fresh 0#32 hapart
    have haddr' := regionAddr_of_fresh 1#32 hapart
    have hzero := alloc_align_zero goal hA hnode htail hsize hsize' hstart
    have hone := alloc_align_one hA hnode htail hsize hsize' hsettles
    -- the effect depends on the alignment through the address of the area only
    have heffect : allocEffect s size 0#32 start = allocEffect s size 1#32 start := by
      unfold allocEffect nextHints regionEnd
      rw [haddr, haddr']
    rw [haddr] at hzero
    rw [haddr'] at hone
    exact ⟨_, _, _, hzero, hone, fun p ↦ by rw [heffect], by rw [heffect], by rw [heffect]⟩

-- A merged area without alignment begins with its page, and covers what is in the page already.
theorem regionAddr_zero (b : BootmemData) (start : Word) :
    regionAddr b 0#32 start =
      if b.lastOffset ≠ 0#32 ∧ b.lastPos + 1#32 = start then b.lastPos.toNat * 4096
      else start.toNat * 4096 := by
  have hlt : 0#32 < pageSize := by decide
  unfold regionAddr
  rw [roundUp_toNat_zero, Nat.add_zero]
  exact if_congr (and_iff_right hlt) rfl rfl

theorem regionAddr_one (b : BootmemData) (start : Word) :
    regionAddr b 1#32 start =
      if b.lastOffset ≠ 0#32 ∧ b.lastPos + 1#32 = start then
        b.lastPos.toNat * 4096 + b.lastOffset.toNat
      else start.toNat * 4096 := by
  have hlt : 1#32 < pageSize := by decide
  unfold regionAddr
  rw [roundUp_toNat_one]
  exact if_congr (and_iff_right hlt) rfl rfl

-- Areas at one address are fresh, and begin with the same page.
theorem fresh_of_regionAddr_eq {b : BootmemData} {start start' : Word} (hnode : ZeroNode b)
    (htail : TailOk b) (hle : start.toNat ≤ start'.toNat)
    (h : regionAddr b 1#32 start' = regionAddr b 0#32 start) :
    start' = start ∧ ¬ (b.lastOffset ≠ 0#32 ∧ b.lastPos + 1#32 = start) := by
  have hlt := htail.lastOffset_lt
  have hpos : b.lastOffset ≠ 0#32 → 0 < b.lastOffset.toNat :=
    fun hne ↦ Nat.pos_of_ne_zero fun hz ↦ hne (BitVec.eq_of_toNat_eq hz)
  rw [regionAddr_zero, regionAddr_one] at h
  by_cases hone : b.lastOffset ≠ 0#32 ∧ b.lastPos + 1#32 = start'
  · -- an offset into a page is not the address of one
    have := hpos hone.1
    rw [if_pos hone] at h
    split at h <;> omega
  · rw [if_neg hone] at h
    by_cases hzero : b.lastOffset ≠ 0#32 ∧ b.lastPos + 1#32 = start
    · have hlast := toNat_lastPos_add_one hnode htail hzero.1
      rw [hzero.2] at hlast
      rw [if_pos hzero] at h
      omega
    · rw [if_neg hzero] at h
      exact ⟨BitVec.eq_of_toNat_eq (by omega), hzero⟩

theorem firstRoomFresh_of_sameCall (hA : AlignSpec ALIGN) (hnode : ZeroNode s.bdata)
    (htail : TailOk s.bdata) (hsize : 1 ≤ size.toNat) (hsize' : size.toNat ≤ 2 ^ 32 - 4096)
    (h : SameCall ALIGN s size goal) : FirstRoomFresh s size goal := by
  have ⟨r, t, t', hzero, hone, _⟩ := h
  rcases Set.eq_empty_or_nonempty (freeRuns s size) with hnone | hsome
  · exact Or.inl hnone
  have ⟨start, hstart⟩ := exists_least_word hnode hsome
  rw [alloc_align_zero goal hA hnode htail hsize hsize' hstart] at hzero
  cases hzero
  rcases allocBootmemCore_settles goal hA hnode htail (admissible_one hsize hsize') with
    ⟨-, hnull⟩ | ⟨start', hsettles, hv, hfound⟩
  · rw [hnull] at hone
    cases hone
  rw [hfound] at hone
  have hret : va (BitVec.ofNat 32 (regionAddr s.bdata 1#32 start')) =
      va (BitVec.ofNat 32 (regionAddr s.bdata 0#32 start)) :=
    Option.some.inj (Prod.mk.inj (Except.ok.inj hone)).1
  have haddr : regionAddr s.bdata 1#32 start' = regionAddr s.bdata 0#32 start := by
    rw [← toNat_pa_regionAddr hnode htail alignOk_one hv.2.1, hret]
    exact toNat_pa_regionAddr hnode htail alignOk_zero hstart.1.1
  have ⟨hsame, hfresh⟩ := fresh_of_regionAddr_eq hnode htail (hstart.2 hv.2) haddr
  rw [hsame] at hsettles
  refine Or.inr ⟨start.toNat, hstart, (settlesOn_least_iff hnode.indexed hstart).mp hsettles, ?_⟩
  intro ⟨hne, hlast⟩
  exact hfresh ⟨hne, BitVec.eq_of_toNat_eq ((toNat_lastPos_add_one hnode htail hne).trans hlast)⟩

theorem keepsApart_of_firstRoomFresh {s : BootState} {x : BootRun} (hA : AlignSpec ALIGN)
    (hx : Tied s x) (hmap : ∀ p ∈ nodeFree s, ¬ HoldsBitmap s.bdata p) (hsize : 1 ≤ size.toNat)
    (hsize' : size.toNat ≤ 2 ^ 32 - 4096) (h : FirstRoomFresh x.state size goal) :
    KeepsApart ALIGN x size goal := by
  intro ret t hcall r hr
  have hnode := hx.confined.zeroNode
  have htail := hx.confined.tail
  have ⟨r', u, u', hzero, hone, _⟩ := sameCall_of_firstRoomFresh hA hnode htail hsize hsize' h
  rw [hzero] at hcall
  cases hcall
  -- the call for an alignment of 1 hands out the same region, and keeps it apart
  rcases allocBootmemCore_settles goal hA hnode htail (admissible_one hsize hsize') with
    ⟨-, hnull⟩ | ⟨start, -, hv, hfound⟩
  · rw [hnull] at hone
    cases hone
  rw [hfound] at hone
  have hret : va (BitVec.ofNat 32 (regionAddr x.state.bdata 1#32 start)) = ret :=
    Option.some.inj (Prod.mk.inj (Except.ok.inj hone)).1
  have hsound := (hx.liveSound_alloc hmap (admissible_one hsize hsize') hv).disjoint
  have hapart := (List.pairwise_cons.mp hsound).1 r hr
  unfold newRegion at hapart
  rw [← hret, pa_va]
  exact hapart

end

/-- **No alignment.**  In any state that calls lead to, an alignment of 0 is treated as one of 1
exactly when the node has no room, or its first room is what the goal asks for too and does not
follow the page the last area ends in.  In that case no live region is handed out again. -/
theorem alignZero_iff {ALIGN : Word → Word → Word} (hA : AlignSpec ALIGN) :
    (∀ (start page size goal : Word) (s₀ s : BootState) (calls : List BootCall),
      page.toNat ≤ 2 ^ 18 → FreshHints s₀.bdata → (∀ c ∈ calls, c.Passes) →
      calls.foldlM (bootStep ALIGN) (initBootmem start page s₀).2 = some s →
      1 ≤ size.toNat → size.toNat ≤ 2 ^ 32 - 4096 →
      (SameCall ALIGN s size goal ↔ FirstRoomFresh s size goal)) ∧
    ∀ (size goal : Word) (s : BootState) (x : BootRun), Shaped s →
      (∀ p ∈ nodeFree s, ¬ HoldsBitmap s.bdata p) →
      Transition.Reachable (allocFreeRuns ALIGN s) x →
      1 ≤ size.toNat → size.toNat ≤ 2 ^ 32 - 4096 →
      FirstRoomFresh x.state size goal → KeepsApart ALIGN x size goal := by
  constructor
  · intro start page size goal s₀ s calls hpage hs₀ hcalls hrun hsize hsize'
    have ⟨t, ht, hok⟩ := nodeOk_of_calls start hA hpage hs₀ hcalls
    rw [hrun] at ht
    cases ht
    exact ⟨firstRoomFresh_of_sameCall hA hok.toZeroNode hok.toTailOk hsize hsize',
      sameCall_of_firstRoomFresh hA hok.toZeroNode hok.toTailOk hsize hsize'⟩
  · intro size goal s x hs hmap hx hsize hsize' hfresh
    exact keepsApart_of_firstRoomFresh hA (tied_of_reachable hA hs hmap hx) hmap hsize hsize' hfresh

/-- The open node of eight pages after a first area of `size` bytes. -/
def firstArea (size : Word) : BootState := allocEffect (openNode 100#32 8#32) size 64#32 0#32

-- Behind an area of a whole page the alignment makes no difference.
theorem alignZero_wholePage :
    SameCall alignMask (firstArea pageSize) 100#32 0#32 ∧
      KeepsApart alignMask ⟨firstArea pageSize,
        [newRegion (openNode 100#32 8#32).bdata pageSize 64#32 0#32]⟩ 100#32 0#32 := by
  have hreq : Admissible pageSize 64#32 := ⟨by decide, by decide, ⟨6, rfl⟩⟩
  have hscan : findStart alignMask (openNode 100#32 8#32) pageSize 64#32 0#32 = .found 0#32 := by
    decide +kernel
  have hfirst : IsLeast (freeRuns (firstArea pageSize) 100#32) 1 :=
    ((findStart_firstFit alignMask_spec rfl (by decide) (admissible_one (by decide) (by decide))
      (by decide)).1 1#32).mp
      (show findStart alignMask (firstArea pageSize) 100#32 1#32 0#32 = .found 1#32 by
        decide +kernel)
  have hfresh : FirstRoomFresh (firstArea pageSize) 100#32 0#32 :=
    Or.inr ⟨1, hfirst, Or.inl (by decide), fun h ↦ h.1 (by decide)⟩
  constructor
  · have hcalls : ∀ c ∈ [BootCall.free 0#32 (pfnPhys 8#32), .alloc pageSize 64#32 0#32],
        c.Passes := by
      simp only [List.forall_mem_cons, List.not_mem_nil, false_implies, implies_true, and_true]
      exact ⟨trivial, by decide, by decide, Or.inl ⟨6, rfl⟩⟩
    exact ((alignZero_iff alignMask_spec).1 _ _ _ _ _ _ _ (by decide) (freshHints_bootImage _)
      hcalls (openNode_run alignMask_spec (by decide) hreq hscan) (by decide) (by decide)).mpr hfresh
  · have hstep := allocStep_of_found (x := ⟨openNode 100#32 8#32, []⟩) alignMask_spec
      (nodeOk_openNode (by decide)).toZeroNode (nodeOk_openNode (by decide)).toTailOk (by decide) (by decide)
      (Or.inl ⟨6, rfl⟩) hscan
    exact (alignZero_iff alignMask_spec).2 _ _ (openNode 100#32 8#32) _
      (shaped_openNode (by decide)) openNode_not_holdsBitmap
      (.step (.init rfl) (Or.inl ⟨_, _, hreq, hstep⟩)) (by decide) (by decide) hfresh

/-- A first area of 100 bytes, and the call for 100 more without an alignment returns address 0
again, where the call for an alignment of 1 returns 100. -/
theorem firstArea_handed_out_again :
    ∃ s, [BootCall.free 0#32 (pfnPhys 8#32), .alloc 100#32 64#32 0#32].foldlM
        (bootStep alignMask) (initBootmem 100#32 8#32 (bootImage fun _ ↦ false)).2 = some s ∧
      ¬ SameCall alignMask s 100#32 0#32 := by
  have hreq : Admissible 100#32 64#32 := ⟨by decide, by decide, ⟨6, rfl⟩⟩
  refine ⟨firstArea 100#32, openNode_run alignMask_spec (by decide) hreq (by decide +kernel), ?_⟩
  intro ⟨r, t, t', hzero, hone, _⟩
  have hnode : ZeroNode (firstArea 100#32).bdata := ⟨by decide, by decide⟩
  have htail : TailOk (firstArea 100#32).bdata := ⟨by decide, by decide⟩
  have hscan : findStart alignMask (firstArea 100#32) 100#32 0#32 0#32 = .found 1#32 := by
    decide +kernel
  have hscan' : findStart alignMask (firstArea 100#32) 100#32 1#32 0#32 = .found 1#32 := by
    decide +kernel
  rw [allocBootmemCore_of_found alignMask_spec hnode htail (by decide) (by decide) alignOk_zero
    hscan] at hzero
  rw [allocBootmemCore_of_found alignMask_spec hnode htail (by decide) (by decide) alignOk_one
    hscan'] at hone
  cases hzero
  have hret := (Prod.mk.inj (Except.ok.inj hone)).1
  revert hret
  decide +kernel

end AphroditeOs
