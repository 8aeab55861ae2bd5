import AphroditeOs.Bootmem.Goal
import AphroditeOs.Setup.Arch

/-!
# Initialisation that runs twice (`init/kmain.cc`)

`start_kernel` calls `setup_arch` a second time, in a debug build after it has allocated memory.
The second call pushes the node on `pgdat_list` again and frees all RAM again.
-/

namespace AphroditeOs

/-! ## The list of nodes -/

/-- The nodes on a null-terminated chain of `pgdat_next` pointers. -/
inductive NodeChain (next : PglistData → Option PglistData) :
    Option PglistData → List PglistData → Prop where
  | nil : NodeChain next none []
  | cons (node : PglistData) (nodes : List PglistData) :
      NodeChain next (next node) nodes → NodeChain next (some node) (node :: nodes)

inductive InitCall where
  | setupArch (e820 : E820Map) (initPgTablesEnd : Word)
  | initBootmem (start page : Word)

def InitCall.run : InitCall → BootState → BootState
  | .setupArch e820 initPgTablesEnd, s => AphroditeOs.setupArch e820 initPgTablesEnd s
  | .initBootmem start page, s => (AphroditeOs.initBootmem start page s).2

def NodeListOk (s : BootState) : Prop :=
  ∃ nodes, NodeChain s.pgdatNext s.pgdatList nodes ∧ nodes.count .contigPageData = 1

/-- Two states with the same allocator: node, hints, bitmap and head of the list. -/
structure SameAllocator (s t : BootState) : Prop where
  nodeLowPfn : t.bdata.nodeLowPfn = s.bdata.nodeLowPfn
  lastPos : t.bdata.lastPos = s.bdata.lastPos
  lastOffset : t.bdata.lastOffset = s.bdata.lastOffset
  lastSuccess : t.bdata.lastSuccess = s.bdata.lastSuccess
  bitmap : ∀ p < 8 * (bootmemMapsize 0#32 s.bdata.nodeLowPfn).toNat, t.busy p = s.busy p
  pgdatList : t.pgdatList = s.pgdatList

/-- After `n` calls the list is in order and the allocator is as after one call. -/
def InitOk (call : InitCall) (s : BootState) (n : Nat) : Prop :=
  NodeListOk (call.run^[n] s) ∧ SameAllocator (call.run^[1] s) (call.run^[n] s)

theorem not_nodeChain_of_self_loop {next : PglistData → Option PglistData} {node : PglistData}
    (h : next node = some node) (nodes : List PglistData) :
    ¬ NodeChain next (some node) nodes := by
  induction nodes with
  | nil => nofun
  | cons a nodes ih =>
    rintro (_ | ⟨_, _, htail⟩)
    rw [h] at htail
    exact ih htail

theorem pgdat_initBootmem (start page : Word) (s : BootState) :
    (initBootmem start page s).2.pgdatList = some .contigPageData ∧
      (initBootmem start page s).2.pgdatNext .contigPageData = s.pgdatList := by
  unfold initBootmem initBootmemCore
  dsimp only
  exact ⟨rfl, Function.update_self _ _ _⟩

theorem pgdat_setupArch (e820 : E820Map) (initPgTablesEnd : Word) (s : BootState) :
    (setupArch e820 initPgTablesEnd s).pgdatList = some .contigPageData ∧
      (setupArch e820 initPgTablesEnd s).pgdatNext .contigPageData = s.pgdatList := by
  obtain ⟨_, _, h⟩ := initState_eq e820 initPgTablesEnd s
  have hsame := (sameNode_setupArch e820 initPgTablesEnd s).pgdat_eq
  rw [hsame.1, hsame.2, h]
  exact pgdat_initBootmem _ _ _

-- Every call makes the node the head of the list, with the old head as its `pgdat_next`.
theorem InitCall.pgdat_run (call : InitCall) (s : BootState) :
    (call.run s).pgdatList = some .contigPageData ∧
      (call.run s).pgdatNext .contigPageData = s.pgdatList := by
  cases call with
  | setupArch e820 initPgTablesEnd => exact pgdat_setupArch e820 initPgTablesEnd s
  | initBootmem start page => exact pgdat_initBootmem start page s

theorem nodeListOk_iterate_iff (call : InitCall) (mem : BitMemory) (n : Nat) :
    NodeListOk (call.run^[n + 1] (bootImage mem)) ↔ n = 0 := by
  rw [Function.iterate_succ_apply']
  obtain ⟨hlist, hnext⟩ := call.pgdat_run (call.run^[n] (bootImage mem))
  unfold NodeListOk
  rw [hlist]
  cases n with
  | zero =>
    refine iff_of_true ⟨[.contigPageData], .cons _ _ ?_, rfl⟩ rfl
    rw [hnext]
    exact .nil
  | succ n =>
    -- the old head is the node itself
    rw [Function.iterate_succ_apply', (call.pgdat_run _).1] at hnext
    rw [Function.iterate_succ_apply']
    refine iff_of_false ?_ (Nat.succ_ne_zero n)
    rintro ⟨nodes, hchain, -⟩
    exact not_nodeChain_of_self_loop hnext nodes hchain

/-! ## The state of the allocator -/

/-- The hints of a node that nothing was taken from. -/
structure NoHints (s : BootState) : Prop where
  lastPos : s.bdata.lastPos = 0#32
  lastOffset : s.bdata.lastOffset = 0#32
  lastSuccess : s.bdata.lastSuccess = 0#32

theorem InitCall.noHints_run (call : InitCall) {s : BootState} (h : NoHints s) :
    NoHints (call.run s) := by
  cases call with
  | setupArch e820 initPgTablesEnd =>
    have hlast := lastOffset_setupArch e820 initPgTablesEnd s
    have hle := lastSuccess_setupArch_le e820 initPgTablesEnd s
    rw [h.lastSuccess, BitVec.le_def] at hle
    exact ⟨hlast.2.trans h.lastPos, hlast.1.trans h.lastOffset,
      BitVec.eq_of_toNat_eq (Nat.le_zero.mp hle)⟩
  | initBootmem start page =>
    unfold InitCall.run
    constructor
    · rw [bdata_initBootmem]
      exact h.lastPos
    · rw [bdata_initBootmem]
      exact h.lastOffset
    · rw [bdata_initBootmem]
      exact h.lastSuccess

-- What a call leaves in the bitmap does not depend on the state before it.
theorem InitCall.bitmap_run (call : InitCall) (s t : BootState) :
    (call.run t).bdata.nodeLowPfn = (call.run s).bdata.nodeLowPfn ∧
      ∀ p < 8 * (bootmemMapsize 0#32 (call.run s).bdata.nodeLowPfn).toNat,
        (call.run t).busy p = (call.run s).busy p := by
  cases call with
  | setupArch e820 initPgTablesEnd =>
    unfold InitCall.run
    dsimp only
    have hsize := toNat_mapsize_setupArch e820 initPgTablesEnd s
    have hfree := fun u ↦ freeBelow_setupArch e820 initPgTablesEnd u
      (8 * (bootmemMapsize 0#32 (lowEnd e820)).toNat)
    simp only [maxLowPfn_setupArch] at hsize hfree
    rw [nodeLowPfn_setupArch, nodeLowPfn_setupArch, maxLowPfn_setupArch, maxLowPfn_setupArch]
    refine ⟨rfl, fun p hp ↦ ?_⟩
    have hsets := (hfree t (by omega) le_rfl).trans (hfree s (by omega) le_rfl).symm
    exact busy_eq_of_freeBelow hsets hp
  | initBootmem start page =>
    unfold InitCall.run
    dsimp only
    rw [bdata_initBootmem, bdata_initBootmem]
    refine ⟨rfl, fun p hp ↦ ?_⟩
    rw [busy_initBootmem _ _ _ hp, busy_initBootmem _ _ _ hp]

theorem InitCall.noHints_iterate (call : InitCall) (mem : BitMemory) (n : Nat) :
    NoHints (call.run^[n] (bootImage mem)) := by
  induction n with
  | zero => exact ⟨rfl, rfl, rfl⟩
  | succ n ih =>
    rw [Function.iterate_succ_apply']
    exact call.noHints_run ih

/-- Without allocations in between, any number of calls leaves the allocator one call leaves. -/
theorem sameAllocator_iterate (call : InitCall) (mem : BitMemory) (n : Nat) :
    SameAllocator (call.run^[1] (bootImage mem)) (call.run^[n + 1] (bootImage mem)) := by
  have hone := call.noHints_iterate mem 1
  have hmany := call.noHints_iterate mem (n + 1)
  have hbitmap := call.bitmap_run (bootImage mem) (call.run^[n] (bootImage mem))
  rw [← Function.iterate_succ_apply' call.run n, ← Function.iterate_one call.run] at hbitmap
  constructor
  · exact hbitmap.1
  · rw [hone.lastPos, hmany.lastPos]
  · rw [hone.lastOffset, hmany.lastOffset]
  · rw [hone.lastSuccess, hmany.lastSuccess]
  · exact hbitmap.2
  · rw [Function.iterate_one, Function.iterate_succ_apply', (call.pgdat_run _).1,
      (call.pgdat_run _).1]

/-- **The list of nodes.**  It is in order after one call only: the second one makes the node its
own successor.  All else is as one call leaves it. -/
theorem initOk_iff (call : InitCall) (mem : BitMemory) (n : Nat) (hn : 1 ≤ n) :
    InitOk call (bootImage mem) n ↔ n = 1 := by
  obtain ⟨n, rfl⟩ := Nat.exists_eq_add_of_le' hn
  unfold InitOk
  rw [nodeListOk_iterate_iff]
  exact ⟨fun h ↦ by omega, fun h ↦ ⟨by omega, sameAllocator_iterate call mem n⟩⟩

theorem initOk_one :
    InitOk (.initBootmem 1#32 8#32) (bootImage fun _ ↦ false) 1 :=
  (initOk_iff (.initBootmem 1#32 8#32) (fun _ ↦ false) 1 le_rfl).mpr rfl

theorem not_initOk_two :
    ¬ InitOk (.setupArch ⟨[], by decide⟩ 0x300000#32) (bootImage fun _ ↦ false) 2 := by
  rintro ⟨hlist, -⟩
  exact absurd ((nodeListOk_iterate_iff _ _ 1).mp hlist) (by decide)

/-! ## Allocations in between -/

/-- No region handed out after the second `setup_arch` overlaps one handed out before it; `x` is
the run in between. -/
def SurvivesRestart (ALIGN : Word → Word → Word) (e820 : E820Map) (initPgTablesEnd : Word)
    (x : BootRun) : Prop :=
  ∀ y, Transition.Reachable (allocRuns ALIGN (setupArch e820 initPgTablesEnd x.state)) y →
    ∀ r ∈ x.live, ∀ r' ∈ y.live, r.Disjoint r'

section

variable {ALIGN : Word → Word → Word} {s : BootState} {x : BootRun}

-- The first region of a run begins at a page that was free, unless the run has no region and has
-- changed nothing.
theorem first_region (hA : AlignSpec ALIGN) (hnode : LowNode s.bdata)
    (hoff : s.bdata.lastOffset = 0#32) (hx : Transition.Reachable (allocRuns ALIGN s) x) :
    x = ⟨s, []⟩ ∨ ∃ r ∈ x.live, ∃ p ∈ nodeFree s, p * 4096 ∈ r.bytes := by
  have hs := confined_nodeFree hnode hoff
  induction hx with
  | init hinit => exact Or.inl hinit
  | @step x y hx hstep ih =>
    obtain ⟨size, align, hsize, h⟩ := hstep
    have hxc := (runConfined_univ hA hnode hs.tail hx).confined
    rcases h.cases hA hxc.node.zeroNode hxc.tail hsize with rfl | ⟨start, hpos, halign, hv, rfl⟩
    · exact ih
    right
    rcases ih with rfl | ⟨r, hr, hp⟩
    · -- the first call finds no page to merge with
      have hfit := hv.2.1
      dsimp only at hfit
      have haddr : regionAddr s.bdata align start = start.toNat * 4096 :=
        if_neg fun hmerge ↦ hmerge.2.1 hoff
      refine ⟨_, List.mem_cons_self, start.toNat, ⟨by omega, hv.2.2 _ le_rfl (by omega)⟩, ?_⟩
      rw [mem_bytes_newRegion hnode.zeroNode hs.tail halign hfit, regionEnd, haddr]
      omega
    · exact ⟨r, List.mem_cons_of_mem _ hr, hp⟩

end

section

variable {ALIGN : Word → Word → Word} {e820 : E820Map} {initPgTablesEnd : Word} {mem : BitMemory}
  {x : BootRun}

-- The hints of a run survive the second `setup_arch`.
theorem tailOk_restart (hA : AlignSpec ALIGN) (hx : Transition.Reachable
    (allocRuns ALIGN (setupArch e820 initPgTablesEnd (bootImage mem))) x) :
    TailOk (setupArch e820 initPgTablesEnd x.state).bdata := by
  have hs := confined_nodeFree (lowNode_setupArch e820 initPgTablesEnd (bootImage mem))
    (lastOffset_setupArch e820 initPgTablesEnd (bootImage mem)).1
  have hxc := runConfined_univ hA hs.node hs.tail hx
  obtain ⟨hoff, hpos⟩ := lastOffset_setupArch e820 initPgTablesEnd x.state
  have hlow : (setupArch e820 initPgTablesEnd x.state).bdata.nodeLowPfn =
      x.state.bdata.nodeLowPfn := by
    rw [hxc.nodeLowPfn_eq, nodeLowPfn_setupArch, nodeLowPfn_setupArch, maxLowPfn_setupArch,
      maxLowPfn_setupArch]
  constructor
  · rw [hoff]
    exact hxc.confined.tail.lastOffset_lt
  · rw [hoff, hpos, hlow]
    exact hxc.confined.tail.lastPos_lt

-- Pages free after one `setup_arch` are free after the next one, whatever has been taken.
theorem nodeFree_restart (s t : BootState) :
    nodeFree (setupArch e820 initPgTablesEnd s) = nodeFree (setupArch e820 initPgTablesEnd t) := by
  rw [nodeFree_setupArch, nodeFree_setupArch]

/-- **The second `setup_arch`.**  What is allocated before it stays apart from what is allocated
after it only if nothing was allocated. -/
theorem survivesRestart_iff (hA : AlignSpec ALIGN) (hx : Transition.Reachable
    (allocRuns ALIGN (setupArch e820 initPgTablesEnd (bootImage mem))) x) :
    SurvivesRestart ALIGN e820 initPgTablesEnd x ↔ x.live = [] := by
  constructor
  · intro h
    rcases first_region hA (lowNode_setupArch e820 initPgTablesEnd (bootImage mem))
      (lastOffset_setupArch e820 initPgTablesEnd (bootImage mem)).1 hx with
      rfl | ⟨r, hr, p, hp, hpr⟩
    · rfl
    -- its page is free again after the second `setup_arch`, and some run hands it out
    rw [nodeFree_restart (bootImage mem) x.state] at hp
    obtain ⟨y, hy, hout⟩ := exists_run_handsOut hA (.init rfl)
      (lowNode_setupArch e820 initPgTablesEnd x.state) (tailOk_restart hA hx) hp.1 hp.2
    obtain ⟨r', hr', hcover⟩ := hout.covers
    exact absurd (hcover (p * 4096) (by omega)) (h y hy r hr r' hr' _ hpr)
  · intro hnone y _ r hr
    rw [hnone] at hr
    exact absurd hr List.not_mem_nil

/-- RAM from 4 KB to 32 KB. -/
def smallRamMap : E820Map := ⟨[⟨0x1000#64, 0x7000#64, e820Ram⟩], by decide⟩

theorem survivesRestart_smallRamMap :
    SurvivesRestart alignMask smallRamMap 0x300000#32
      ⟨setupArch smallRamMap 0x300000#32 (bootImage fun _ ↦ false), []⟩ :=
  (survivesRestart_iff alignMask_spec (.init rfl)).mpr rfl

def smallFirst : BootState := setupArch smallRamMap 0x300000#32 (bootImage fun _ ↦ false)

/-- 64 bytes of page 1 taken before the second `setup_arch`. -/
def smallBefore : BootRun :=
  ⟨allocEffect smallFirst 64#32 32#32 1#32, [newRegion smallFirst.bdata 64#32 32#32 1#32]⟩

/-- The same 64 bytes taken after it. -/
def smallAfter : BootRun :=
  let s := setupArch smallRamMap 0x300000#32 smallBefore.state
  ⟨allocEffect s 64#32 32#32 1#32, [newRegion s.bdata 64#32 32#32 1#32]⟩

/-- A call for 64 bytes before the second `setup_arch` and one after it both get page 1. -/
theorem smallRamMap_not_survived :
    ∃ x, Transition.Reachable (allocRuns alignMask
        (setupArch smallRamMap 0x300000#32 (bootImage fun _ ↦ false))) x ∧
      ¬ SurvivesRestart alignMask smallRamMap 0x300000#32 x := by
  have halign : AlignOk 32#32 := Or.inl ⟨5, rfl⟩
  have hnode := lowNode_setupArch smallRamMap 0x300000#32
  have hscan : findStart alignMask smallFirst 64#32 32#32 0#32 = .found 1#32 := by decide +kernel
  have hscan' : findStart alignMask (setupArch smallRamMap 0x300000#32 smallBefore.state) 64#32
      32#32 0#32 = .found 1#32 := by decide +kernel
  have hcall : AllocStep alignMask 64#32 32#32 ⟨smallFirst, []⟩ smallBefore :=
    allocStep_of_found alignMask_spec (hnode _).zeroNode ⟨by decide, by decide⟩ (by decide)
      (by decide) halign hscan
  have hcall' : AllocStep alignMask 64#32 32#32
      ⟨setupArch smallRamMap 0x300000#32 smallBefore.state, []⟩ smallAfter :=
    allocStep_of_found alignMask_spec (hnode _).zeroNode ⟨by decide, by decide⟩ (by decide)
      (by decide) halign hscan'
  refine ⟨smallBefore, .step (.init rfl) ⟨64#32, 32#32, by decide, hcall⟩, fun h ↦ ?_⟩
  have hreach : Transition.Reachable (allocRuns alignMask
      (setupArch smallRamMap 0x300000#32 smallBefore.state)) smallAfter :=
    .step (.init rfl) ⟨64#32, 32#32, by decide, hcall'⟩
  exact h smallAfter hreach _ List.mem_cons_self _ List.mem_cons_self 4096 (by decide) (by decide)

end

end AphroditeOs
