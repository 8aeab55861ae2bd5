import AphroditeOs.Bootmem.Runs

/-!
# Memory setup (`kernel/setup.c`, `include/asm/e820.h`)

`setup_arch` finds the end of low memory, places the bitmap of the boot allocator behind the
kernel, and frees the low pages of the RAM entries.  The build has neither `CONFIG_HIGHMEM` nor
`CONFIG_X86_PAE`.
-/

namespace AphroditeOs

def e820Max : Nat := 128

def e820Ram : Word := 1#32

structure E820Entry where
  addr : BitVec 64
  size : BitVec 64
  type : Word
  deriving DecidableEq, Repr

/-- `struct e820map`; the entries are those below `nr_map`. -/
structure E820Map where
  map : List E820Entry
  nrMap_le : map.length ≤ e820Max

/-- `PFN_UP` of the address as an `unsigned long`. -/
def E820Entry.startPfn (e : E820Entry) : Word := (pfnUp e.addr).setWidth 32

/-- `PFN_DOWN` of the end as an `unsigned long`. -/
def E820Entry.endPfn (e : E820Entry) : Word := (pfnDown (e.addr + e.size)).setWidth 32

def maxPfnStep (maxPfn : Word) (e : E820Entry) : Word :=
  if e.type ≠ e820Ram then maxPfn
  else if e.endPfn ≤ e.startPfn then maxPfn
  else if maxPfn < e.endPfn then e.endPfn
  else maxPfn

def findMaxPfn (e820 : E820Map) (s : BootState) : BootState :=
  { s with maxPfn := e820.map.foldl maxPfnStep 0#32 }

def findMaxLowPfn (s : BootState) : Word × BootState :=
  if maxmemPfn < s.maxPfn then
    (maxmemPfn, { s with
      highmemPages := if s.highmemPages = -1#32 then s.maxPfn - maxmemPfn else s.highmemPages
      maxPfn := maxmemPfn })
  else
    (s.maxPfn, { s with highmemPages := if s.highmemPages = -1#32 then 0#32 else s.highmemPages })

def registerStep (maxLowPfn : Word) (s : BootState) (e : E820Entry) : BootState :=
  if e.type ≠ e820Ram then s
  else if maxLowPfn ≤ e.startPfn then s
  else
    let lastPfn := if maxLowPfn ≤ e.endPfn then maxLowPfn else e.endPfn
    if lastPfn ≤ e.startPfn then s
    else freeBootmem (pfnPhys e.startPfn) (pfnPhys (lastPfn - e.startPfn)) s

def registerBootmemLowPages (e820 : E820Map) (maxLowPfn : Word) (s : BootState) : BootState :=
  e820.map.foldl (registerStep maxLowPfn) s

def setupBootmemAllocator (e820 : E820Map) (s : BootState) : BootState :=
  let s := (initBootmem s.minLowPfn s.maxLowPfn s).2
  registerBootmemLowPages e820 s.maxLowPfn s

def setupMemory (e820 : E820Map) (initPgTablesEnd : Word) (s : BootState) : Word × BootState :=
  let s := { s with minLowPfn := pfnUp initPgTablesEnd }
  let (maxLowPfn, s) := findMaxLowPfn (findMaxPfn e820 s)
  let s := setupBootmemAllocator e820 { s with maxLowPfn := maxLowPfn }
  (s.maxLowPfn, s)

def setupArch (e820 : E820Map) (initPgTablesEnd : Word) (s : BootState) : BootState :=
  (setupMemory e820 initPgTablesEnd s).2

/-! ## The end of low memory -/

/-- The frame an entry ends at, when it has a whole page as the code counts them. -/
def E820Entry.topPfn (e : E820Entry) : Nat :=
  if e.type = e820Ram ∧ e.startPfn < e.endPfn then e.endPfn.toNat else 0

theorem toNat_maxPfnStep (m : Word) (e : E820Entry) :
    (maxPfnStep m e).toNat = max m.toNat e.topPfn := by
  unfold maxPfnStep E820Entry.topPfn
  by_cases htype : e.type = e820Ram
  · rw [if_neg (not_not.mpr htype)]
    by_cases hle : e.endPfn ≤ e.startPfn
    · have htop : ¬ (e.type = e820Ram ∧ e.startPfn < e.endPfn) := fun h ↦ BitVec.not_lt.mpr hle h.2
      rw [if_pos hle, if_neg htop, Nat.max_zero]
    · have htop : e.type = e820Ram ∧ e.startPfn < e.endPfn := ⟨htype, BitVec.not_le.mp hle⟩
      rw [if_neg hle, if_pos htop]
      split
      next hlt => rw [max_eq_right (BitVec.lt_def.mp hlt).le]
      next hge => rw [max_eq_left (Nat.le_of_not_lt fun h ↦ hge (BitVec.lt_def.mpr h))]
  · rw [if_pos htype, if_neg (fun h ↦ htype h.1), Nat.max_zero]

theorem foldl_maxPfnStep_le_iff (es : List E820Entry) (m : Word) (k : Nat) :
    (es.foldl maxPfnStep m).toNat ≤ k ↔ m.toNat ≤ k ∧ ∀ e ∈ es, e.topPfn ≤ k := by
  induction es generalizing m with
  | nil => simp
  | cons e es ih =>
    rw [List.foldl_cons, ih, toNat_maxPfnStep, Nat.max_le, List.forall_mem_cons, and_assoc]

/-- What `find_max_pfn` and `find_max_low_pfn` return together. -/
def lowEnd (e820 : E820Map) : Word :=
  if maxmemPfn < e820.map.foldl maxPfnStep 0#32 then maxmemPfn
  else e820.map.foldl maxPfnStep 0#32

/-- The end of low memory, by what bounds it. -/
theorem lowEnd_le_iff (e820 : E820Map) (k : Nat) :
    (lowEnd e820).toNat ≤ k ↔ maxmemPfn.toNat ≤ k ∨ ∀ e ∈ e820.map, e.topPfn ≤ k := by
  have hfold := foldl_maxPfnStep_le_iff e820.map 0#32 k
  rw [BitVec.toNat_zero] at hfold
  have hall : (∀ e ∈ e820.map, e.topPfn ≤ k) ↔ (e820.map.foldl maxPfnStep 0#32).toNat ≤ k := by
    rw [hfold]
    simp
  rw [hall]
  unfold lowEnd
  split
  next hlt =>
    rw [BitVec.lt_def] at hlt
    omega
  next hge =>
    rw [BitVec.lt_def] at hge
    omega

theorem lowEnd_le_maxmemPfn (e820 : E820Map) : lowEnd e820 ≤ maxmemPfn :=
  BitVec.le_def.mpr ((lowEnd_le_iff e820 _).mpr (Or.inl le_rfl))

/-! ## The pages freed -/

/-- The pages the loop frees for an entry when none of them is free before. -/
def lowPages (maxLowPfn : Word) (e : E820Entry) : Range :=
  if e.type = e820Ram then ⟨e.startPfn.toNat, min e.endPfn.toNat maxLowPfn.toNat⟩ else ⟨0, 0⟩

def BootState.freeBelow (s : BootState) (n : Nat) : Set Nat := {p | p < n ∧ s.busy p = false}

theorem busy_eq_of_freeBelow {s t : BootState} {n p : Nat} (h : s.freeBelow n = t.freeBelow n)
    (hp : p < n) : s.busy p = t.busy p := by
  have hiff := and_congr_right_iff.mp (Set.ext_iff.mp h p) hp
  rw [Bool.eq_iff_iff, ← not_iff_not, Bool.not_eq_true, Bool.not_eq_true]
  exact hiff

theorem freePages_registerStep {maxLowPfn : Word} {s : BootState} (hnode : LowNode s.bdata)
    (hlow : s.bdata.nodeLowPfn = maxLowPfn) (e : E820Entry) :
    (registerStep maxLowPfn s e).freePages = Sweep.sweepOne s.freePages (lowPages maxLowPfn e) := by
  have hmax := hnode.toNat_nodeLowPfn_le
  rw [hlow] at hmax
  unfold registerStep lowPages
  by_cases htype : e.type = e820Ram
  · rw [if_neg (not_not.mpr htype), if_pos htype]
    by_cases hstart : maxLowPfn ≤ e.startPfn
    · rw [if_pos hstart, Sweep.sweepOne_of_le]
      rw [BitVec.le_def] at hstart
      dsimp only
      omega
    rw [if_neg hstart]
    rw [BitVec.le_def] at hstart
    have hlast : (if maxLowPfn ≤ e.endPfn then maxLowPfn else e.endPfn).toNat =
        min e.endPfn.toNat maxLowPfn.toNat := by
      split
      next hle =>
        rw [BitVec.le_def] at hle
        omega
      next hle =>
        rw [BitVec.le_def] at hle
        omega
    dsimp only
    rw [← hlast]
    generalize (if maxLowPfn ≤ e.endPfn then maxLowPfn else e.endPfn) = last at hlast ⊢
    by_cases hempty : last ≤ e.startPfn
    · rw [if_pos hempty, Sweep.sweepOne_of_le]
      exact BitVec.le_def.mp hempty
    rw [if_neg hempty]
    rw [BitVec.le_def] at hempty
    -- below `MAXMEM` the addresses passed to `free_bootmem` do not wrap
    have haddr : (pfnPhys e.startPfn).toNat = e.startPfn.toNat * 4096 :=
      toNat_shiftLeft_pageShift _ (by omega)
    have hcount : (last - e.startPfn).toNat = last.toNat - e.startPfn.toNat :=
      BitVec.toNat_sub_of_le (by rw [BitVec.le_def]; omega)
    have hsize : (pfnPhys (last - e.startPfn)).toNat = (last.toNat - e.startPfn.toNat) * 4096 := by
      rw [pfnPhys, toNat_shiftLeft_pageShift _ (by omega), hcount]
    have hfrom : ((pfnPhys e.startPfn).toNat + 4095) / 4096 = e.startPfn.toNat := by omega
    have hto : ((pfnPhys e.startPfn).toNat + (pfnPhys (last - e.startPfn)).toNat) / 4096 =
        last.toNat := by omega
    rw [freePages_freeBootmem hnode.nodeBootStart (by omega) (by rw [hlow]; omega), hfrom, hto]
  · rw [if_pos htype, if_neg htype, Sweep.sweepOne_of_le le_rfl]

/-- Nothing but memory and the hint `last_success` has changed, and the hint has not moved up. -/
def SameNode (s t : BootState) : Prop :=
  ∃ mem lastSuccess, lastSuccess ≤ s.bdata.lastSuccess ∧ t = { s with
    mem := mem
    bdata := { s.bdata with lastSuccess := lastSuccess } }

theorem SameNode.refl (s : BootState) : SameNode s s := ⟨_, _, BitVec.le_refl _, rfl⟩

theorem SameNode.trans {s t u : BootState} (h : SameNode s t) (h' : SameNode t u) :
    SameNode s u := by
  obtain ⟨_, _, hle, rfl⟩ := h
  obtain ⟨_, _, hle', rfl⟩ := h'
  exact ⟨_, _, BitVec.le_trans hle' hle, rfl⟩

theorem SameNode.lowNode {s t : BootState} (h : SameNode s t) (hs : LowNode s.bdata) :
    LowNode t.bdata := by
  obtain ⟨_, _, -, rfl⟩ := h
  exact ⟨hs.nodeBootStart, hs.nodeLowPfn⟩

theorem SameNode.nodeLowPfn_eq {s t : BootState} (h : SameNode s t) :
    t.bdata.nodeLowPfn = s.bdata.nodeLowPfn := by
  obtain ⟨_, _, -, rfl⟩ := h
  rfl

theorem SameNode.maxLowPfn_eq {s t : BootState} (h : SameNode s t) :
    t.maxLowPfn = s.maxLowPfn := by
  obtain ⟨_, _, -, rfl⟩ := h
  rfl

theorem SameNode.minLowPfn_eq {s t : BootState} (h : SameNode s t) :
    t.minLowPfn = s.minLowPfn := by
  obtain ⟨_, _, -, rfl⟩ := h
  rfl

theorem SameNode.map_eq {s t : BootState} (h : SameNode s t) : t.bdata.map = s.bdata.map := by
  obtain ⟨_, _, -, rfl⟩ := h
  rfl

theorem SameNode.lastOffset_eq {s t : BootState} (h : SameNode s t) :
    t.bdata.lastOffset = s.bdata.lastOffset ∧ t.bdata.lastPos = s.bdata.lastPos := by
  obtain ⟨_, _, -, rfl⟩ := h
  exact ⟨rfl, rfl⟩

theorem SameNode.lastSuccess_le {s t : BootState} (h : SameNode s t) :
    t.bdata.lastSuccess ≤ s.bdata.lastSuccess := by
  obtain ⟨_, _, hle, rfl⟩ := h
  exact hle

theorem SameNode.pgdat_eq {s t : BootState} (h : SameNode s t) :
    t.pgdatList = s.pgdatList ∧ t.pgdatNext = s.pgdatNext := by
  obtain ⟨_, _, -, rfl⟩ := h
  exact ⟨rfl, rfl⟩

theorem sameNode_freeBootmem (addr size : Word) (s : BootState) :
    SameNode s (freeBootmem addr size s) := by
  unfold freeBootmem freeBootmemCore
  dsimp only
  split
  · exact SameNode.refl s
  · split
    next hlt => exact ⟨_, _, BitVec.le_of_lt hlt, rfl⟩
    next => exact ⟨_, _, BitVec.le_refl _, rfl⟩

theorem sameNode_registerStep (maxLowPfn : Word) (s : BootState) (e : E820Entry) :
    SameNode s (registerStep maxLowPfn s e) := by
  unfold registerStep
  dsimp only
  generalize (if maxLowPfn ≤ e.endPfn then maxLowPfn else e.endPfn) = last
  split
  · exact SameNode.refl s
  split
  · exact SameNode.refl s
  split
  · exact SameNode.refl s
  · exact sameNode_freeBootmem _ _ _

theorem foldl_registerStep {maxLowPfn : Word} (es : List E820Entry) {s : BootState}
    (hnode : LowNode s.bdata) (hlow : s.bdata.nodeLowPfn = maxLowPfn) :
    SameNode s (es.foldl (registerStep maxLowPfn) s) ∧
      (es.foldl (registerStep maxLowPfn) s).freePages =
        Sweep.sweepFrom s.freePages (es.map (lowPages maxLowPfn)) := by
  induction es generalizing s with
  | nil => exact ⟨SameNode.refl s, rfl⟩
  | cons e es ih =>
    have hsame := sameNode_registerStep maxLowPfn s e
    have hnext := ih (hsame.lowNode hnode) (hsame.nodeLowPfn_eq.trans hlow)
    rw [List.foldl_cons, List.map_cons]
    refine ⟨hsame.trans hnext.1, ?_⟩
    rw [hnext.2, freePages_registerStep hnode hlow e]
    rfl

/-! ## The state after `setup_arch` -/

/-- The state that `init_bootmem` leaves in `setup_bootmem_allocator`. -/
def initState (e820 : E820Map) (initPgTablesEnd : Word) (s : BootState) : BootState :=
  let r := findMaxLowPfn (findMaxPfn e820 { s with minLowPfn := pfnUp initPgTablesEnd })
  (initBootmem r.2.minLowPfn r.1 { r.2 with maxLowPfn := r.1 }).2

theorem setupArch_eq (e820 : E820Map) (initPgTablesEnd : Word) (s : BootState) :
    setupArch e820 initPgTablesEnd s =
      e820.map.foldl (registerStep (initState e820 initPgTablesEnd s).maxLowPfn)
        (initState e820 initPgTablesEnd s) := rfl

theorem toNat_bootmemMapsize {stop : Word} (h : stop.toNat ≤ 2 ^ 18) :
    (bootmemMapsize 0#32 stop).toNat = (stop.toNat + 31) / 32 * 4 := by
  have hmap := @toNat_bootmemMapsize_of_pages 0#32 stop
  rw [BitVec.sub_zero] at hmap
  exact hmap (by omega)

section

variable (e820 : E820Map) (initPgTablesEnd : Word) (s : BootState)

-- `find_max_low_pfn` only sets `max_pfn` and `highmem_pages`.
theorem initState_eq : ∃ maxPfn highmemPages, initState e820 initPgTablesEnd s =
    (initBootmem (pfnUp initPgTablesEnd) (lowEnd e820) { s with
      maxLowPfn := lowEnd e820
      minLowPfn := pfnUp initPgTablesEnd
      maxPfn := maxPfn
      highmemPages := highmemPages }).2 := by
  unfold initState lowEnd findMaxLowPfn findMaxPfn
  dsimp only
  -- `highmem_pages` differs in the two branches, and nothing else of the state does
  generalize e820.map.foldl maxPfnStep 0#32 = top
  by_cases h : maxmemPfn < top
  · simp only [if_pos h]
    exact ⟨_, _, rfl⟩
  · simp only [if_neg h]
    exact ⟨_, _, rfl⟩

theorem lowNode_initState : LowNode (initState e820 initPgTablesEnd s).bdata := by
  obtain ⟨_, _, h⟩ := initState_eq e820 initPgTablesEnd s
  rw [h, bdata_initBootmem]
  exact ⟨rfl, lowEnd_le_maxmemPfn e820⟩

theorem limits_initState :
    (initState e820 initPgTablesEnd s).maxLowPfn = lowEnd e820 ∧
      (initState e820 initPgTablesEnd s).minLowPfn = pfnUp initPgTablesEnd := by
  obtain ⟨_, _, h⟩ := initState_eq e820 initPgTablesEnd s
  rw [h]
  exact limits_initBootmem _ _ _

theorem nodeLowPfn_initState : (initState e820 initPgTablesEnd s).bdata.nodeLowPfn =
    (initState e820 initPgTablesEnd s).maxLowPfn := by
  rw [(limits_initState e820 initPgTablesEnd s).1]
  obtain ⟨_, _, h⟩ := initState_eq e820 initPgTablesEnd s
  rw [h, bdata_initBootmem]

theorem freeBelow_initState :
    (initState e820 initPgTablesEnd s).freeBelow
      (8 * (bootmemMapsize 0#32 (initState e820 initPgTablesEnd s).maxLowPfn).toNat) = ∅ := by
  ext p
  refine iff_of_false (fun ⟨hp, hfree⟩ ↦ ?_) (Set.notMem_empty p)
  have hset : (initState e820 initPgTablesEnd s).busy p = true := busy_initBootmem _ _ _ hp
  rw [hset] at hfree
  contradiction

theorem sameNode_setupArch :
    SameNode (initState e820 initPgTablesEnd s) (setupArch e820 initPgTablesEnd s) :=
  (foldl_registerStep e820.map (lowNode_initState e820 initPgTablesEnd s)
    (nodeLowPfn_initState e820 initPgTablesEnd s)).1

theorem lowNode_setupArch : LowNode (setupArch e820 initPgTablesEnd s).bdata :=
  (sameNode_setupArch e820 initPgTablesEnd s).lowNode (lowNode_initState e820 initPgTablesEnd s)

theorem nodeLowPfn_setupArch :
    (setupArch e820 initPgTablesEnd s).bdata.nodeLowPfn =
      (setupArch e820 initPgTablesEnd s).maxLowPfn := by
  have h := sameNode_setupArch e820 initPgTablesEnd s
  rw [h.nodeLowPfn_eq, h.maxLowPfn_eq, nodeLowPfn_initState]

theorem toNat_maxLowPfn_le : (setupArch e820 initPgTablesEnd s).maxLowPfn.toNat ≤ 229376 := by
  rw [← nodeLowPfn_setupArch]
  exact (lowNode_setupArch e820 initPgTablesEnd s).toNat_nodeLowPfn_le

theorem toNat_mapsize_setupArch :
    (bootmemMapsize 0#32 (setupArch e820 initPgTablesEnd s).maxLowPfn).toNat =
      ((setupArch e820 initPgTablesEnd s).maxLowPfn.toNat + 31) / 32 * 4 := by
  have hlow := toNat_maxLowPfn_le e820 initPgTablesEnd s
  exact toNat_bootmemMapsize (by omega)

theorem maxLowPfn_setupArch : (setupArch e820 initPgTablesEnd s).maxLowPfn = lowEnd e820 := by
  rw [(sameNode_setupArch e820 initPgTablesEnd s).maxLowPfn_eq]
  exact (limits_initState e820 initPgTablesEnd s).1

theorem minLowPfn_setupArch :
    (setupArch e820 initPgTablesEnd s).minLowPfn = pfnUp initPgTablesEnd := by
  rw [(sameNode_setupArch e820 initPgTablesEnd s).minLowPfn_eq]
  exact (limits_initState e820 initPgTablesEnd s).2

-- The bitmap begins at page `min_low_pfn`.
theorem map_setupArch :
    (setupArch e820 initPgTablesEnd s).bdata.map =
      (setupArch e820 initPgTablesEnd s).minLowPfn.toNat * 4096 := by
  obtain ⟨_, _, h⟩ := initState_eq e820 initPgTablesEnd s
  rw [(sameNode_setupArch e820 initPgTablesEnd s).map_eq, h, map_initBootmem, minLowPfn_setupArch,
    toNat_shiftLeft_pageShift]
  rw [pfnUp, toNat_shiftRight_pageShift]
  have := (initPgTablesEnd + BitVec.ofNat 32 4096 - 1#32).isLt
  omega

-- Neither the last page nor its offset is reset.
theorem lastOffset_setupArch :
    (setupArch e820 initPgTablesEnd s).bdata.lastOffset = s.bdata.lastOffset ∧
      (setupArch e820 initPgTablesEnd s).bdata.lastPos = s.bdata.lastPos := by
  obtain ⟨_, _, h⟩ := initState_eq e820 initPgTablesEnd s
  have hsame := (sameNode_setupArch e820 initPgTablesEnd s).lastOffset_eq
  rw [hsame.1, hsame.2, h, bdata_initBootmem]
  exact ⟨rfl, rfl⟩

theorem lastSuccess_setupArch_le :
    (setupArch e820 initPgTablesEnd s).bdata.lastSuccess ≤ s.bdata.lastSuccess := by
  obtain ⟨_, _, h⟩ := initState_eq e820 initPgTablesEnd s
  have hle := (sameNode_setupArch e820 initPgTablesEnd s).lastSuccess_le
  rwa [h, bdata_initBootmem] at hle

/-- The whole pages of the RAM entries below `MAXMEM`, in the order of the map. -/
def ramPages (e820 : E820Map) : List Range := e820.map.map (lowPages maxmemPfn)

-- Clipping at `max_low_pfn` is clipping at `MAXMEM_PFN`.
theorem lowPages_lowEnd {e : E820Entry} (he : e ∈ e820.map) :
    let r := lowPages (lowEnd e820) e
    r = lowPages maxmemPfn e ∨
      r.stop ≤ r.start ∧ (lowPages maxmemPfn e).stop ≤ (lowPages maxmemPfn e).start := by
  have hle := (lowEnd_le_iff e820 _).mp le_rfl
  have hmax := lowEnd_le_maxmemPfn e820
  rw [BitVec.le_def] at hmax
  dsimp only
  unfold lowPages
  by_cases htype : e.type = e820Ram
  · rw [if_pos htype, if_pos htype]
    by_cases hlt : e.startPfn < e.endPfn
    · left
      have htop : e.topPfn = e.endPfn.toNat := if_pos ⟨htype, hlt⟩
      rcases hle with hle | hle
      · rw [le_antisymm hmax hle]
      · have := hle e he
        rw [min_eq_left (by omega), min_eq_left (by omega)]
    · right
      rw [BitVec.lt_def] at hlt
      dsimp only
      omega
  · rw [if_neg htype, if_neg htype]
    exact Or.inl rfl

/-- The pages that are free after `setup_arch`, of all that have a bit in the bitmap. -/
theorem freeBelow_setupArch (n : Nat) (hlow : (setupArch e820 initPgTablesEnd s).maxLowPfn.toNat ≤ n)
    (hn : n ≤ 8 * (bootmemMapsize 0#32 (setupArch e820 initPgTablesEnd s).maxLowPfn).toNat) :
    (setupArch e820 initPgTablesEnd s).freeBelow n =
      Sweep.sweep (ramPages e820) := by
  rw [(sameNode_setupArch e820 initPgTablesEnd s).maxLowPfn_eq] at hlow hn
  have hfold := (foldl_registerStep e820.map (lowNode_initState e820 initPgTablesEnd s)
    (nodeLowPfn_initState e820 initPgTablesEnd s)).2
  have hstop : ∀ r ∈ e820.map.map (lowPages (initState e820 initPgTablesEnd s).maxLowPfn),
      r.stop ≤ n := by
    intro r hr
    obtain ⟨e, -, rfl⟩ := List.mem_map.mp hr
    unfold lowPages
    split
    · dsimp only
      omega
    · exact Nat.zero_le n
  -- `init_bootmem` has set every bit that the sweep can see
  have hempty : {p | p < n ∧ p ∈ (initState e820 initPgTablesEnd s).freePages} = ∅ := by
    apply Set.eq_empty_of_subset_empty
    rw [← freeBelow_initState e820 initPgTablesEnd s]
    exact fun p hp ↦ ⟨hp.1.trans_le hn, hp.2⟩
  have hinter := Sweep.sweepFrom_inter hstop (initState e820 initPgTablesEnd s).freePages
  rw [hempty] at hinter
  rw [Sweep.sweep, ramPages, ← Sweep.sweepFrom_map_congr fun e he ↦ lowPages_lowEnd e820 he,
    ← (limits_initState e820 initPgTablesEnd s).1, ← hinter]
  change {p | p < n ∧ p ∈ (setupArch e820 initPgTablesEnd s).freePages} = _
  rw [setupArch_eq, hfold]

theorem nodeFree_setupArch :
    nodeFree (setupArch e820 initPgTablesEnd s) = Sweep.sweep (ramPages e820) := by
  have hsize := toNat_mapsize_setupArch e820 initPgTablesEnd s
  rw [← freeBelow_setupArch e820 initPgTablesEnd s _ le_rfl (by omega), nodeFree,
    nodeLowPfn_setupArch]
  rfl

end

end AphroditeOs
