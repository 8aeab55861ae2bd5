import AphroditeOs.Bootmem.Runs

/-!
# The pages that runs hand out

A free page of the node can be had in two calls: the first one, without a goal, moves the hint
`last_success` down to the first free page, so that the second one may name the page as its goal.
With a page of the bitmap go the bits it holds, so what runs hand out is what the free pages spread
to.
-/

namespace AphroditeOs

section

variable {ALIGN : Word → Word → Word} {s : BootState} {p : Nat}

theorem alignOk_pageSize : AlignOk pageSize := Or.inl ⟨12, rfl⟩

-- A scan for one page from `i` on takes the first free page.
theorem restartScan_onePage (hA : AlignSpec ALIGN) (hnode : LowNode s.bdata) {i : Word}
    (hi : i.toNat ≤ p) (hp : p < s.bdata.nodeLowPfn.toNat) (hfree : s.busy p = false) :
    ∃ start, restartScan ALIGN s pageSize pageSize i = .found start ∧
      ViableStart s pageSize pageSize start.toNat ∧ start.toNat ≤ p ∧ i.toNat ≤ start.toNat := by
  have hans : StrideScan.Answers s.busy s.bdata.nodeLowPfn.toNat 1 1 (Align.roundUp i.toNat 1)
      (restartScan ALIGN s pageSize pageSize i).toResult :=
    restartScan_answers hA hnode.zeroNode.indexed (by decide) (by decide) alignOk_pageSize i
  have hpage : StrideScan.Viable s.busy s.bdata.nodeLowPfn.toNat 1 1 p :=
    ⟨one_dvd p, hp, fun q hlo hhi ↦ by rwa [show q = p by omega]⟩
  rw [Align.roundUp_of_dvd (by decide) (one_dvd _)] at hans
  cases hr : restartScan ALIGN s pageSize pageSize i with
  | hang =>
    rw [hr] at hans
    exact hans.elim
  | exhausted =>
    rw [hr] at hans
    exact absurd hpage (hans.not_viable_of_one hi)
  | found start =>
    rw [hr] at hans
    obtain ⟨hv, hle, hfirst⟩ := hans.found_one
    exact ⟨start, rfl, hv, Nat.le_of_not_lt fun hlt ↦ hfirst p hi hlt hpage, hle⟩

theorem findStart_eq {size align goal start : Word}
    (h : restartScan ALIGN s size align (preferredPage s.bdata align goal) = .found start) :
    findStart ALIGN s size align goal = .found start := by
  unfold findStart
  dsimp only
  rw [h]

-- A goal above `last_success` is where the scan begins.
theorem toNat_preferredPage_above {b : BootmemData} (hnode : LowNode b)
    (hp : p < b.nodeLowPfn.toNat) (hlast : b.lastSuccess.toNat < p * 4096) :
    (preferredPage b pageSize (BitVec.ofNat 32 (p * 4096))).toNat = p := by
  have hlow := hnode.toNat_nodeLowPfn_le
  have hgoal : (BitVec.ofNat 32 (p * 4096)).toNat = p * 4096 := by
    rw [toNat_ofNat_of_lt (by omega)]
  have hmax : max (BitVec.ofNat 32 (p * 4096)).toNat b.lastSuccess.toNat = p * 4096 := by
    rw [hgoal]
    exact max_eq_left hlast.le
  rw [toNat_preferredPage hnode.zeroNode.indexed ⟨12, toNat_pageSize⟩, hmax, toNat_pageSize,
    Align.roundUp_of_dvd (by decide) (Dvd.intro_left p rfl), Nat.mul_div_cancel _ (by decide)]
  · intro hz
    rw [hz, BitVec.toNat_zero] at hgoal
    omega
  · rw [BitVec.lt_def, toNat_shiftRight_pageShift, hgoal]
    omega
  · rw [hmax, toNat_pageSize]
    omega

theorem regionAddr_onePage (b : BootmemData) (start : Word) :
    regionAddr b pageSize start = start.toNat * 4096 :=
  if_neg fun h ↦ absurd h.1 (by decide)

/-- The run has handed out page `p`, all of it, and last of all: the bits that lie there are clear. -/
structure HandsOut (x : BootRun) (p : Nat) : Prop where
  covers : ∃ r ∈ x.live, ∀ a, a / 4096 = p → a ∈ r.bytes
  clear : ∀ q, (x.state.bdata.map + q / 8) / 4096 = p → x.state.busy q = false

/-- The run after a call for one page that settled on `start`. -/
def BootRun.onePage (x : BootRun) (start : Word) : BootRun :=
  ⟨allocEffect x.state pageSize pageSize start,
    newRegion x.state.bdata pageSize pageSize start :: x.live⟩

theorem state_onePage (x : BootRun) (start : Word) :
    (x.onePage start).state = allocEffect x.state pageSize pageSize start := rfl

section

variable {x : BootRun} {start : Word}

theorem reachable_onePage {goal : Word} (hA : AlignSpec ALIGN)
    (hx : Transition.Reachable (allocRuns ALIGN s) x) (hnode : LowNode x.state.bdata)
    (htail : TailOk x.state.bdata)
    (hfound : findStart ALIGN x.state pageSize pageSize goal = .found start) :
    Transition.Reachable (allocRuns ALIGN s) (x.onePage start) :=
  hx.step ⟨pageSize, pageSize, by decide,
    allocStep_of_found hA hnode.zeroNode htail (by decide) (by decide) alignOk_pageSize hfound⟩

theorem handsOut_onePage (hnode : LowNode x.state.bdata) (htail : TailOk x.state.bdata)
    (hfit : start.toNat + 1 ≤ x.state.bdata.nodeLowPfn.toNat) :
    HandsOut (x.onePage start) start.toNat := by
  constructor
  · refine ⟨_, List.mem_cons_self, fun a ha ↦ ?_⟩
    rw [mem_bytes_newRegion hnode.zeroNode htail alignOk_pageSize hfit, regionEnd,
      regionAddr_onePage, toNat_pageSize]
    omega
  · intro q hq
    rw [state_onePage, map_allocEffect] at hq
    rw [state_onePage, ← Bool.not_eq_true, busy_allocEffect, regionEnd, regionAddr_onePage,
      toNat_pageSize]
    rintro ⟨-, hout⟩
    omega

-- A call for one page takes no other page.
theorem free_onePage (hfree : x.state.busy p = false) (hlt : start.toNat < p) :
    (x.onePage start).state.busy p = false := by
  rw [state_onePage, ← Bool.not_eq_true, busy_allocEffect, regionEnd, regionAddr_onePage, hfree,
    pagesBelow, toNat_pageSize]
  rintro ⟨h | h, -⟩
  · contradiction
  · omega

theorem lastSuccess_onePage_lt (hlt : start.toNat < p) (hp : p < 2 ^ 20) :
    (x.onePage start).state.bdata.lastSuccess.toNat < p * 4096 := by
  change (start <<< pageShift).toNat < _
  rw [toNat_shiftLeft_pageShift _ (by omega)]
  omega

theorem exists_run_handsOut (hA : AlignSpec ALIGN)
    (hx : Transition.Reachable (allocRuns ALIGN s) x) (hnode : LowNode x.state.bdata)
    (htail : TailOk x.state.bdata) (hp : p < x.state.bdata.nodeLowPfn.toNat)
    (hfree : x.state.busy p = false) :
    ∃ y, Transition.Reachable (allocRuns ALIGN s) y ∧ HandsOut y p := by
  have hlow := hnode.toNat_nodeLowPfn_le
  -- the first call settles on the first free page
  obtain ⟨start, hr, hv, hle, -⟩ := restartScan_onePage hA hnode (i := 0#32) (Nat.zero_le p) hp hfree
  rw [← preferredPage_no_goal hnode.zeroNode.indexed ⟨12, toNat_pageSize⟩] at hr
  have hfirst := reachable_onePage hA hx hnode htail (findStart_eq hr)
  rcases Nat.eq_or_lt_of_le hle with rfl | hlt
  · exact ⟨_, hfirst, handsOut_onePage hnode htail hv.2.1⟩
  -- page `p` is still free, and above `last_success`
  have hnode' : LowNode (x.onePage start).state.bdata := lowNode_nextHints hnode
  have htail' : TailOk (x.onePage start).state.bdata :=
    tailOk_nextHints hnode.zeroNode htail alignOk_pageSize (by decide) hv.2.1
  have hp' : p < (x.onePage start).state.bdata.nodeLowPfn.toNat := by
    rw [state_onePage, nodeLowPfn_allocEffect]
    exact hp
  have hpref := toNat_preferredPage_above hnode' hp' (lastSuccess_onePage_lt hlt (by omega))
  obtain ⟨start', hr', hv', hle', hge'⟩ :=
    restartScan_onePage hA hnode' hpref.le hp' (free_onePage hfree hlt)
  rw [hpref] at hge'
  obtain rfl := le_antisymm hle' hge'
  exact ⟨_, reachable_onePage hA hfirst hnode' htail' (findStart_eq hr'),
    handsOut_onePage hnode' htail' hv'.2.1⟩

end

end

/-! ## All of them -/

/-- The pages of `free`, and with a page those whose mark it holds. -/
inductive Spread (free : Set Nat) (holder : Nat → Nat) (limit : Nat) : Nat → Prop
  | free {p : Nat} : p ∈ free → Spread free holder limit p
  | held {q : Nat} : q < limit → Spread free holder limit (holder q) → Spread free holder limit q

/-- The page that holds the bit of page `q`. -/
def BootmemData.holder (b : BootmemData) (q : Nat) : Nat := (b.map + q / 8) / 4096

section

variable {ALIGN : Word → Word → Word} {s : BootState} {p : Nat}

theorem runConfined_univ (hA : AlignSpec ALIGN) (hnode : LowNode s.bdata) (htail : TailOk s.bdata)
    {x : BootRun} (hx : Transition.Reachable (allocRuns ALIGN s) x) : RunConfined Set.univ s x :=
  runConfined hA ⟨hnode, htail, fun _ _ _ ↦ trivial, fun _ ↦ trivial⟩ (fun _ _ _ ↦ trivial) hx

theorem exists_run_of_spread (hA : AlignSpec ALIGN) (hnode : LowNode s.bdata)
    (htail : TailOk s.bdata) (hp : Spread (nodeFree s) s.bdata.holder s.bdata.nodeLowPfn.toNat p) :
    ∃ x, Transition.Reachable (allocRuns ALIGN s) x ∧ HandsOut x p := by
  induction hp with
  | free hp => exact exists_run_handsOut hA (.init rfl) hnode htail hp.1 hp.2
  | held hq _ ih =>
    -- the page with the bit of `q` is handed out first
    obtain ⟨x, hx, hout⟩ := ih
    have hconf := runConfined_univ hA hnode htail hx
    refine exists_run_handsOut hA hx hconf.confined.node hconf.confined.tail ?_ (hout.clear _ ?_)
    · rwa [hconf.nodeLowPfn_eq]
    · rw [hconf.map_eq]
      rfl

theorem spread_of_touches (hA : AlignSpec ALIGN) (hnode : LowNode s.bdata)
    (hoff : s.bdata.lastOffset = 0#32) {x : BootRun}
    (hx : Transition.Reachable (allocRuns ALIGN s) x) {r : Region} (hr : r ∈ x.live)
    (hp : r.Touches p) : Spread (nodeFree s) s.bdata.holder s.bdata.nodeLowPfn.toNat p := by
  have hfree := confined_nodeFree hnode hoff
  have hconf : Confined {p | Spread (nodeFree s) s.bdata.holder s.bdata.nodeLowPfn.toNat p} s :=
    ⟨hnode, hfree.tail, fun p hp hb ↦ .free (hfree.free p hp hb), fun h ↦ absurd hoff h⟩
  exact (runConfined hA hconf (fun q hq h ↦ .held hq h) hx).touches r hr p hp

/-- Runs hand out exactly the pages that the free ones spread to. -/
theorem exists_run_touching_iff (hA : AlignSpec ALIGN) (hnode : LowNode s.bdata)
    (hoff : s.bdata.lastOffset = 0#32) :
    (∃ x, Transition.Reachable (allocRuns ALIGN s) x ∧ ∃ r ∈ x.live, r.Touches p) ↔
      Spread (nodeFree s) s.bdata.holder s.bdata.nodeLowPfn.toNat p := by
  constructor
  · rintro ⟨x, hx, r, hr, hp⟩
    exact spread_of_touches hA hnode hoff hx hr hp
  · intro hp
    obtain ⟨x, hx, hout⟩ := exists_run_of_spread hA hnode (confined_nodeFree hnode hoff).tail hp
    obtain ⟨r, hr, hcover⟩ := hout.covers
    exact ⟨x, hx, r, hr, p * 4096, hcover _ (by omega), by omega⟩

end

end AphroditeOs
