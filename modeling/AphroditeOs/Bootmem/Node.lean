import AphroditeOs.Bitops
import AphroditeOs.Lib.Sweep

/-!
# The boot memory node (`mm/bootmem.c`, `mm/page_alloc.c`)

The globals of the boot allocator, and `init_bootmem`, `reserve_bootmem` and `free_bootmem`.  The
bitmap is kept in memory, where `__alloc_bootmem_core` can overwrite it.
-/

namespace AphroditeOs

/-- `bootmem_data_t`. -/
structure BootmemData where
  nodeBootStart : Word
  nodeLowPfn : Word
  nodeBootmemMap : Word
  lastOffset : Word
  lastPos : Word
  lastSuccess : Word
  deriving DecidableEq, Repr

/-- The nodes of the kernel: `contig_page_data` is the only one, and `NODE_DATA(0)` points to it. -/
inductive PglistData where
  | contigPageData
  deriving DecidableEq, Repr

structure BootState where
  mem : BitMemory
  -- `contig_bootmem_data`
  bdata : BootmemData
  maxLowPfn : Word
  minLowPfn : Word
  maxPfn : Word
  highmemPages : Word
  -- `pgdat_list`, and the field `pgdat_next` of each node; `none` is `NULL`
  pgdatList : Option PglistData
  pgdatNext : PglistData → Option PglistData

/-- The globals as the image is loaded: `.bss` is zero and `highmem_pages` is -1. -/
def bootImage (mem : BitMemory) : BootState where
  mem := mem
  bdata := ⟨0#32, 0#32, 0#32, 0#32, 0#32, 0#32⟩
  maxLowPfn := 0#32
  minLowPfn := 0#32
  maxPfn := 0#32
  highmemPages := -1#32
  pgdatList := none
  pgdatNext := fun _ ↦ none

/-- Physical byte address of the bitmap. -/
def BootmemData.map (b : BootmemData) : Nat := (pa b.nodeBootmemMap).toNat

/-- Bit `p` of the bitmap is set: page `p` is reserved. -/
def BootState.busy (s : BootState) (p : Nat) : Bool := testBit s.mem s.bdata.map p

def BootState.freePages (s : BootState) : Set Nat := {p | s.busy p = false}

def setRun (mem : BitMemory) (addr : Nat) : Nat → Nat → BitMemory
  | 0, _ => mem
  | count + 1, i => setRun (testAndSetBit mem addr i).2 addr count (i + 1)

def clearRun (mem : BitMemory) (addr : Nat) : Nat → Nat → BitMemory
  | 0, _ => mem
  | count + 1, i =>
    let r := testAndClearBit mem addr i
    -- a bit that is clear already ends the loop with `return`
    if r.1 then clearRun r.2 addr count (i + 1) else r.2

def reserveBootmemCore (addr size : Word) (s : BootState) : BootState :=
  let b := s.bdata
  let sidx := (addr - b.nodeBootStart) / pageSize
  let eidx := (addr + size - b.nodeBootStart + pageSize - 1#32) / pageSize
  let endPfn := (addr + size + pageSize - 1#32) / pageSize
  if size = 0#32 ∨ eidx ≤ sidx ∨ b.nodeLowPfn ≤ addr >>> pageShift ∨ b.nodeLowPfn < endPfn then s
  else { s with mem := setRun s.mem b.map (eidx.toNat - sidx.toNat) sidx.toNat }

def freeBootmemCore (addr size : Word) (s : BootState) : BootState :=
  let b := s.bdata
  let eidx := (addr + size - b.nodeBootStart) / pageSize
  let endPfn := (addr + size) / pageSize
  if b.nodeLowPfn < endPfn then s
  else
    let b := if addr < b.lastSuccess then { b with lastSuccess := addr } else b
    let start := (addr + pageSize - 1#32) / pageSize
    let sidx := start - b.nodeBootStart / pageSize
    { s with bdata := b, mem := clearRun s.mem b.map (eidx.toNat - sidx.toNat) sidx.toNat }

def reserveBootmem (addr size : Word) (s : BootState) : BootState := reserveBootmemCore addr size s

def freeBootmem (addr size : Word) (s : BootState) : BootState := freeBootmemCore addr size s

/-- The size in bytes of the bitmap for the pages from `start` to `stop`. -/
def bootmemMapsize (start stop : Word) : Word :=
  let mapsize := ((stop - start) + 7#32) / 8#32
  (mapsize + 4#32 - 1#32) &&& ~~~(4#32 - 1#32)

def initBootmemCore (pgdat : PglistData) (mapstart start stop : Word) (s : BootState) :
    Word × BootState :=
  let mapsize := bootmemMapsize start stop
  let bdata := { s.bdata with
    nodeBootmemMap := va (mapstart <<< pageShift)
    nodeBootStart := start <<< pageShift
    nodeLowPfn := stop }
  (mapsize, { s with
    pgdatNext := Function.update s.pgdatNext pgdat s.pgdatList
    pgdatList := some pgdat
    bdata := bdata
    mem := s.mem.fill bdata.map 0xFF#8 mapsize.toNat })

def initBootmem (start page : Word) (s : BootState) : Word × BootState :=
  initBootmemCore .contigPageData start 0#32 page { s with maxLowPfn := page, minLowPfn := start }

/-! ## Runs of bits -/

/-- Clearing a run frees what a range takes in a sweep of the pages free before. -/
theorem clearRun_free (mem : BitMemory) (addr count i : Nat) :
    {p | testBit (clearRun mem addr count i) addr p = false} =
      Sweep.sweepOne {p | testBit mem addr p = false} ⟨i, i + count⟩ := by
  ext p
  rw [Sweep.mem_sweepOne_iff, Range.mem_iff]
  simp only [Set.mem_ofPred_eq, Bool.not_eq_false]
  -- the loop stops where the range does: at the first page that is free already
  induction count generalizing mem i with
  | zero =>
    rw [clearRun]
    exact ⟨Or.inl, fun h ↦ h.resolve_right (by omega)⟩
  | succ count ih =>
    rw [clearRun]
    split
    next hset =>
      -- bit `i` was set, so page `i` is freed and the loop goes on
      have hi : testBit mem addr i = true := hset
      rw [ih, testBit_testAndClearBit]
      by_cases hp : p = i
      · subst hp
        simp only [if_true, true_or, true_iff]
        exact Or.inr ⟨⟨le_rfl, by omega⟩, fun q hlo hhi ↦ by rwa [le_antisymm hhi hlo]⟩
      · rw [if_neg hp]
        refine or_congr_right ⟨fun ⟨hr, hq⟩ ↦ ⟨⟨by omega, by omega⟩, fun q hlo hhi ↦ ?_⟩,
          fun ⟨hr, hq⟩ ↦ ⟨⟨by omega, by omega⟩, fun q hlo hhi ↦ ?_⟩⟩
        · rcases Nat.eq_or_lt_of_le hlo with rfl | hlt
          · exact hi
          · have := hq q hlt hhi
            rwa [testBit_testAndClearBit, if_neg (by omega)] at this
        · rw [testBit_testAndClearBit, if_neg (by omega)]
          exact hq q (by omega) hhi
    next hclear =>
      -- page `i` is free already, and so is all that changes
      have hi : testBit mem addr i = false := Bool.eq_false_iff.mpr hclear
      rw [testBit_testAndClearBit]
      by_cases hp : p = i
      · subst hp
        simp [hi]
      · rw [if_neg hp]
        refine ⟨Or.inl, fun h ↦ h.resolve_right fun ⟨hr, hq⟩ ↦ ?_⟩
        rw [hq i le_rfl hr.1] at hi
        contradiction

/-! ## The node after `init_bootmem` -/

theorem map_initBootmemCore (pgdat : PglistData) (mapstart start stop : Word) (s : BootState) :
    (initBootmemCore pgdat mapstart start stop s).2.bdata.map = (mapstart <<< pageShift).toNat := by
  unfold initBootmemCore
  dsimp only
  rw [BootmemData.map, pa_va]

theorem mem_initBootmemCore (pgdat : PglistData) (mapstart start stop : Word) (s : BootState) :
    (initBootmemCore pgdat mapstart start stop s).2.mem =
      s.mem.fill (initBootmemCore pgdat mapstart start stop s).2.bdata.map 0xFF#8
        (bootmemMapsize start stop).toNat := by
  unfold initBootmemCore
  dsimp only

theorem bdata_initBootmem (start page : Word) (s : BootState) :
    (initBootmem start page s).2.bdata = { s.bdata with
      nodeBootmemMap := va (start <<< pageShift)
      nodeBootStart := 0#32
      nodeLowPfn := page } := by
  unfold initBootmem initBootmemCore
  dsimp only
  rw [show 0#32 <<< pageShift = 0#32 from rfl]

theorem map_initBootmem (start page : Word) (s : BootState) :
    (initBootmem start page s).2.bdata.map = (start <<< pageShift).toNat :=
  map_initBootmemCore _ _ _ _ _

-- The bitmap has a bit for each page, in whole words.
theorem toNat_bootmemMapsize_of_pages {start stop : Word} (h : (stop - start).toNat < 2 ^ 31) :
    (bootmemMapsize start stop).toNat = ((stop - start).toNat + 31) / 32 * 4 := by
  have hbytes : ((stop - start + 7#32) / 8#32).toNat = ((stop - start).toNat + 7) / 8 := by
    rw [BitVec.toNat_udiv, BitVec.toNat_add, show (7#32).toNat = 7 from rfl,
      show (8#32).toNat = 8 from rfl, Nat.mod_eq_of_lt (by omega)]
  unfold bootmemMapsize
  dsimp only
  rw [@Align.toNat_align 32 4#32 _ ⟨2, rfl⟩ (by rw [hbytes]; change _ + 4 ≤ _; omega), hbytes,
    show (4#32).toNat = 4 from rfl, Align.roundUp]
  omega

theorem limits_initBootmem (start page : Word) (s : BootState) :
    (initBootmem start page s).2.maxLowPfn = page ∧
      (initBootmem start page s).2.minLowPfn = start := by
  unfold initBootmem initBootmemCore
  exact ⟨rfl, rfl⟩

theorem busy_initBootmem (start page : Word) (s : BootState) {p : Nat}
    (hp : p < 8 * (bootmemMapsize 0#32 page).toNat) : (initBootmem start page s).2.busy p = true := by
  unfold BootState.busy testBit initBootmem initBootmemCore
  dsimp only
  exact BitMemory.fill_ones_inside (by omega) (by omega)

/-! ## Freeing a region -/

-- Apart from the bitmap, a free changes only the hint `last_success`.
theorem freeBootmem_bdata (addr size : Word) (s : BootState) :
    (freeBootmem addr size s).bdata = s.bdata ∨
      (freeBootmem addr size s).bdata = { s.bdata with lastSuccess := addr } := by
  unfold freeBootmem freeBootmemCore
  dsimp only
  split
  · exact Or.inl rfl
  · split
    · exact Or.inr rfl
    · exact Or.inl rfl

theorem freeBootmem_map (addr size : Word) (s : BootState) :
    (freeBootmem addr size s).bdata.map = s.bdata.map := by
  rcases freeBootmem_bdata addr size s with h | h <;> rw [h]
  rfl

-- The hint never moves up.
theorem lastSuccess_freeBootmem_le (addr size : Word) (s : BootState) :
    (freeBootmem addr size s).bdata.lastSuccess.toNat ≤ s.bdata.lastSuccess.toNat := by
  unfold freeBootmem freeBootmemCore
  dsimp only
  split
  · exact le_rfl
  · split
    next hlt => exact (BitVec.lt_def.mp hlt).le
    next => exact le_rfl

theorem hints_freeBootmem (addr size : Word) (s : BootState) :
    (freeBootmem addr size s).bdata.nodeBootStart = s.bdata.nodeBootStart ∧
      (freeBootmem addr size s).bdata.nodeLowPfn = s.bdata.nodeLowPfn ∧
      (freeBootmem addr size s).bdata.lastOffset = s.bdata.lastOffset ∧
      (freeBootmem addr size s).bdata.lastPos = s.bdata.lastPos := by
  rcases freeBootmem_bdata addr size s with h | h <;> rw [h] <;> exact ⟨rfl, rfl, rfl, rfl⟩

theorem reserveBootmem_bdata (addr size : Word) (s : BootState) :
    (reserveBootmem addr size s).bdata = s.bdata := by
  unfold reserveBootmem reserveBootmemCore
  dsimp only
  split <;> rfl

/-- A free of a region inside the node takes the whole pages of the region, up to the first one
that is free already. -/
theorem freePages_freeBootmem {addr size : Word} {s : BootState}
    (hboot : s.bdata.nodeBootStart = 0#32) (hwrap : addr.toNat + size.toNat + 4096 ≤ 2 ^ 32)
    (hnode : (addr.toNat + size.toNat) / 4096 ≤ s.bdata.nodeLowPfn.toNat) :
    (freeBootmem addr size s).freePages =
      Sweep.sweepOne s.freePages ⟨(addr.toNat + 4095) / 4096, (addr.toNat + size.toNat) / 4096⟩ := by
  have hend : ((addr + size) / pageSize).toNat = (addr.toNat + size.toNat) / 4096 := by
    rw [toNat_div_pageSize, BitVec.toNat_add, Nat.mod_eq_of_lt (by omega)]
  have hstart := toNat_add_pageSize_sub_one_div addr (by omega)
  have hmem : (freeBootmem addr size s).mem = clearRun s.mem s.bdata.map
      ((addr.toNat + size.toNat) / 4096 - (addr.toNat + 4095) / 4096) ((addr.toNat + 4095) / 4096) := by
    unfold freeBootmem freeBootmemCore
    dsimp only
    have hzero : (0#32 : Word) / pageSize = 0#32 := rfl
    rw [if_neg (by rw [BitVec.lt_def, hend]; omega)]
    split
    · dsimp only
      rw [hboot, BitVec.sub_zero, hend, hzero, BitVec.sub_zero, hstart]
      rfl
    · dsimp only
      rw [hboot, BitVec.sub_zero, hend, hzero, BitVec.sub_zero, hstart]
  have hfree : (freeBootmem addr size s).freePages =
      {p | testBit (freeBootmem addr size s).mem s.bdata.map p = false} := by
    unfold BootState.freePages BootState.busy
    rw [freeBootmem_map]
  rw [hfree, hmem, clearRun_free]
  -- a range that ends before it begins takes nothing either way
  rcases Nat.le_total ((addr.toNat + size.toNat) / 4096) ((addr.toNat + 4095) / 4096) with h | h
  · rw [Nat.sub_eq_zero_of_le h, Sweep.sweepOne_of_le le_rfl, Sweep.sweepOne_of_le h]
    rfl
  · rw [Nat.add_sub_cancel' h]
    rfl

end AphroditeOs
