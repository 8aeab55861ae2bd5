import AphroditeOs.Bootmem.Merge

/-!
# The goal of an allocation

The goal is a preference: the scan begins at the higher one of the goal and `last_success`, a second
scan begins at page 0, and the merge path may move the region into the page before.
-/

namespace AphroditeOs

/-- The goal's page: the goal rounded up to the alignment, and down to a page. -/
def goalPage (align goal : Word) : Nat := Align.roundUp goal.toNat align.toNat / 4096

/-- With room at or above the goal's page, a region is not returned from below the goal. -/
def GoalHonoured (ALIGN : Word → Word → Word) (s : BootState) (size align goal : Word) : Prop :=
  (∃ p, ViableStart s size align p ∧ goalPage align goal ≤ p) →
    ∀ ret t, allocBootmemCore ALIGN size align goal s = .ok (some ret, t) →
      goal.toNat ≤ (pa ret).toNat

/-- The call returns a region, and not from below `bound`. -/
def ReturnsAbove (ALIGN : Word → Word → Word) (s : BootState) (size align goal : Word)
    (bound : Nat) : Prop :=
  ∃ ret t, allocBootmemCore ALIGN size align goal s = .ok (some ret, t) ∧ bound ≤ (pa ret).toNat

/-- A scan comes to a page at or above the goal's page, and the goal's page is not merged with the
page before it. -/
structure GoalInReach (s : BootState) (size align goal : Word) : Prop where
  room : (openStarts s size align (preferredPage s.bdata align goal).toNat).Nonempty ∨
    (openStarts s size align 0).Nonempty ∧
      ∀ p, ViableStart s size align p → goalPage align goal ≤ p
  apart : ∀ start : Word, start.toNat = goalPage align goal →
    SettlesOn s size align goal start.toNat → ¬ UsesLastPage s.bdata align start

section

variable {ALIGN : Word → Word → Word} {s : BootState} {size align goal : Word}

-- The first scan never begins below the goal's page.
theorem goalPage_le_preferredPage (hs : NodeOk s.bdata) (halign : align.toNat.isPowerOfTwo)
    (hin : goal >>> pageShift < s.bdata.nodeLowPfn) :
    goalPage align goal ≤ (preferredPage s.bdata align goal).toNat := by
  have hpos := Nat.pos_of_isPowerOfTwo halign
  by_cases hz : goal = 0#32
  · rw [hz, goalPage, BitVec.toNat_zero, Align.roundUp_of_dvd hpos (dvd_zero _)]
    exact Nat.zero_le _
  -- goal, hint and alignment are small enough for their sum not to wrap
  have hlow := hs.nodeLowPfn
  have hhint := hs.lastSuccess_le
  have hgoal := hin
  rw [BitVec.lt_def, toNat_shiftRight_pageShift] at hgoal
  have hmax : align.toNat ≤ 2 ^ 31 := by
    have hlt := align.isLt
    obtain ⟨k, hk⟩ := halign
    rw [hk] at hlt ⊢
    exact Nat.pow_le_pow_right (by decide)
      (Nat.le_of_lt_succ ((Nat.pow_lt_pow_iff_right (by decide)).mp hlt))
  rw [toNat_preferredPage hs.toZeroNode.indexed halign hz hin (by omega), goalPage]
  exact Nat.div_le_div_right (Align.roundUp_mono hpos (le_max_left _ _))

-- A goal of whole pages, or of an alignment of a page or more, is not above its own page.
theorem goal_le_goalPage (halign : align.toNat.isPowerOfTwo)
    (hgoal : 4096 ∣ goal.toNat ∨ 4096 ≤ align.toNat) :
    goal.toNat ≤ goalPage align goal * 4096 := by
  have hle := Align.le_roundUp goal.toNat (Nat.pos_of_isPowerOfTwo halign)
  have hdvd := Align.dvd_roundUp goal.toNat align.toNat
  unfold goalPage
  rcases hgoal with ⟨k, hk⟩ | hpage
  · omega
  · have hwhole := (page_dvd_of_le halign hpage).trans hdvd
    omega

theorem GoalInReach.exists_settles (hr : GoalInReach s size align goal) (hs : NodeOk s.bdata)
    (halign : align.toNat.isPowerOfTwo) (hin : goal >>> pageShift < s.bdata.nodeLowPfn) :
    ∃ p, SettlesOn s size align goal p ∧ goalPage align goal ≤ p := by
  have hpref := goalPage_le_preferredPage hs halign hin
  by_cases hfirst : (openStarts s size align (preferredPage s.bdata align goal).toNat).Nonempty
  · have hp := isLeast_csInf hfirst
    exact ⟨_, Or.inl hp, hpref.trans (mem_openStarts_iff.mp hp.1).1⟩
  · obtain ⟨hsecond, habove⟩ := hr.room.resolve_left hfirst
    have hp := isLeast_csInf hsecond
    exact ⟨_, Or.inr ⟨Set.not_nonempty_iff_eq_empty.mp hfirst, hp⟩,
      habove _ (mem_openStarts_iff.mp hp.1).2.1⟩

theorem returnsAbove_goalPage (hA : AlignSpec ALIGN) (hs : NodeOk s.bdata)
    (h : Admissible size align) (hin : goal >>> pageShift < s.bdata.nodeLowPfn)
    (hr : GoalInReach s size align goal) :
    ReturnsAbove ALIGN s size align goal (goalPage align goal * 4096) := by
  have halign : AlignOk align := Or.inl h.align_pow
  obtain ⟨p, hp, hge⟩ := hr.exists_settles hs h.align_pow hin
  rcases allocBootmemCore_settles goal hA hs.toZeroNode hs.toTailOk h with
    ⟨hnone, -⟩ | ⟨start, hstart, hv, hfound⟩
  · exact absurd hp (hnone p)
  obtain rfl := hp.eq hstart
  have hbounds := regionAddr_bounds start hs.toZeroNode hs.toTailOk halign
  refine ⟨_, _, hfound, ?_⟩
  rw [toNat_pa_regionAddr hs.toZeroNode hs.toTailOk halign hv.2.1]
  by_cases huses : UsesLastPage s.bdata align start
  · -- a region in the page before `start` means that `start` is above the goal's page
    have hne : start.toNat ≠ goalPage align goal := fun heq ↦ hr.apart start heq hstart huses
    omega
  · rw [regionAddr_of_not_usesLastPage hs.toZeroNode hs.toTailOk halign huses]
    exact Nat.mul_le_mul_right 4096 hge

-- At page granularity nothing else keeps a region from being returned below the goal's page.
theorem goalInReach_of_returnsAbove (hA : AlignSpec ALIGN) (hs : NodeOk s.bdata)
    (h : Admissible size align) (hpage : align.toNat ≤ 4096)
    (hret : ReturnsAbove ALIGN s size align goal (goalPage align goal * 4096)) :
    GoalInReach s size align goal := by
  have halign : AlignOk align := Or.inl h.align_pow
  obtain ⟨ret, t, hcall, hbound⟩ := hret
  rcases allocBootmemCore_settles goal hA hs.toZeroNode hs.toTailOk h with
    ⟨-, hnull⟩ | ⟨start, hstart, hv, hfound⟩
  · rw [hnull] at hcall
    cases hcall
  rw [hfound] at hcall
  have haddr : (pa ret).toNat = regionAddr s.bdata align start := by
    rw [← Option.some.inj (Prod.mk.inj (Except.ok.inj hcall)).1]
    exact toNat_pa_regionAddr hs.toZeroNode hs.toTailOk halign hv.2.1
  rw [haddr] at hbound
  have hle := (regionAddr_bounds start hs.toZeroNode hs.toTailOk halign).1
  constructor
  · rcases hstart with hfirst | ⟨-, hsecond⟩
    · exact Or.inl ⟨_, hfirst.1⟩
    · refine Or.inr ⟨⟨_, hsecond.1⟩, fun p hp ↦ ?_⟩
      -- with stride one every viable start is open
      have hopen : p ∈ openStarts s size align 0 := by
        rw [mem_openStarts_iff, fragmentsBefore, show max (align.toNat / 4096) 1 = 1 by omega,
          StrideScan.fragRun_one]
        exact ⟨Nat.zero_le p, hp, Even.zero⟩
      have := hsecond.2 hopen
      omega
  · intro start' heq hstart' huses
    have hsame : start' = start := BitVec.eq_of_toNat_eq (hstart'.eq hstart)
    rw [hsame] at heq huses
    have hlt := (usesLastPage_iff hs.toZeroNode hs.toTailOk halign).mp huses
    omega

end

/-- **Goals.**  After any calls, an allocation with its goal in reach returns a region from the
goal's page or above it; with an alignment of a page at most it does so in no other case. -/
theorem goal_honoured {ALIGN : Word → Word → Word} {start page size align goal : Word}
    {s₀ s : BootState} {calls : List BootCall} (hA : AlignSpec ALIGN) (hpage : page.toNat ≤ 2 ^ 18)
    (hs₀ : FreshHints s₀.bdata) (hcalls : ∀ c ∈ calls, c.Ok)
    (hrun : calls.foldlM (bootStep ALIGN) (initBootmem start page s₀).2 = some s)
    (h : Admissible size align) (hin : goal >>> pageShift < s.bdata.nodeLowPfn) :
    (GoalInReach s size align goal →
      ReturnsAbove ALIGN s size align goal (goalPage align goal * 4096) ∧
        (4096 ∣ goal.toNat ∨ 4096 ≤ align.toNat →
          ReturnsAbove ALIGN s size align goal goal.toNat)) ∧
    (align.toNat ≤ 4096 →
      ReturnsAbove ALIGN s size align goal (goalPage align goal * 4096) →
        GoalInReach s size align goal) := by
  obtain ⟨t, ht, hs⟩ := nodeOk_of_calls start hA hpage hs₀ fun c hc ↦ (hcalls c hc).passes
  rw [hrun] at ht
  obtain rfl := Option.some.inj ht
  constructor
  · intro hr
    have habove := returnsAbove_goalPage hA hs h hin hr
    refine ⟨habove, fun hgoal ↦ ?_⟩
    obtain ⟨ret, t, hcall, hbound⟩ := habove
    exact ⟨ret, t, hcall, (goal_le_goalPage h.align_pow hgoal).trans hbound⟩
  · exact fun hle hret ↦ goalInReach_of_returnsAbove hA hs h hle hret

-- A goal that nothing stands in the way of.
theorem openNode_goal_honoured :
    ReturnsAbove alignMask (openNode 100#32 8#32) pageSize pageSize (pfnPhys 5#32) 20480 := by
  have hreq : Admissible pageSize pageSize := ⟨by decide, by decide, ⟨12, rfl⟩⟩
  have hbusy : ∀ q < 8, (openNode 100#32 8#32).busy q = false := by decide +kernel
  have hpref : (preferredPage (openNode 100#32 8#32).bdata pageSize (pfnPhys 5#32)).toNat = 5 := by
    decide +kernel
  have hopen : 5 ∈ openStarts (openNode 100#32 8#32) pageSize pageSize 5 := by
    refine ⟨le_rfl, ⟨one_dvd 5, by decide, fun q _ hq ↦ hbusy q ?_⟩, by decide⟩
    exact Nat.lt_of_lt_of_le (show q < 6 from hq) (by decide)
  have hreach : GoalInReach (openNode 100#32 8#32) pageSize pageSize (pfnPhys 5#32) :=
    ⟨Or.inl ⟨5, by rw [hpref]; exact hopen⟩, fun start _ _ huses ↦ absurd huses.1 (by decide)⟩
  have hcalls : ∀ c ∈ [BootCall.free 0#32 (pfnPhys 8#32)], c.Ok := by simp [BootCall.Ok]
  exact ((goal_honoured alignMask_spec (by decide) (freshHints_bootImage _) hcalls rfl hreq
    (by decide)).1 hreach).2 (Or.inr (by decide))

/-- Page 5 is taken, so that `last_success` is above the goal.  No three pages are free from there
on, and the second scan returns page 0, below the goal, although pages 1 to 3 are free. -/
theorem openNode_goal_missed :
    ∃ s, [BootCall.free 0#32 (pfnPhys 8#32), .alloc pageSize pageSize (pfnPhys 5#32)].foldlM
        (bootStep alignMask) (initBootmem 100#32 8#32 (bootImage fun _ ↦ false)).2 = some s ∧
      ¬ GoalHonoured alignMask s (pfnPhys 3#32) 64#32 pageSize := by
  have hreq : Admissible pageSize pageSize := ⟨by decide, by decide, ⟨12, rfl⟩⟩
  have hrun := openNode_run alignMask_spec (by decide) hreq
    (show findStart alignMask (openNode 100#32 8#32) pageSize pageSize (pfnPhys 5#32) = .found 5#32
      by decide +kernel)
  refine ⟨allocEffect (openNode 100#32 8#32) pageSize pageSize 5#32, hrun, fun h ↦ ?_⟩
  have hscan : findStart alignMask (allocEffect (openNode 100#32 8#32) pageSize pageSize 5#32)
      (pfnPhys 3#32) 64#32 pageSize = .found 0#32 := by decide +kernel
  have hcall := allocBootmemCore_of_found alignMask_spec
    (show ZeroNode (allocEffect (openNode 100#32 8#32) pageSize pageSize 5#32).bdata from
      ⟨by decide, by decide⟩) ⟨by decide, by decide⟩ (by decide) (by decide) (Or.inl ⟨6, rfl⟩)
    hscan
  have hbusy : ∀ q < 5,
      (allocEffect (openNode 100#32 8#32) pageSize pageSize 5#32).busy q = false := by
    decide +kernel
  have hroom : ViableStart (allocEffect (openNode 100#32 8#32) pageSize pageSize 5#32)
      (pfnPhys 3#32) 64#32 1 := by
    refine ⟨one_dvd 1, by decide, fun q _ hq ↦ hbusy q ?_⟩
    exact Nat.lt_of_lt_of_le (show q < 4 from hq) (by decide)
  have habove := h ⟨1, hroom, by decide⟩ _ _ hcall
  revert habove
  decide +kernel

end AphroditeOs
