import AphroditeOs.Lib.PageTables
import AphroditeOs.Lib.WhileLoop
import AphroditeOs.Page

/-!
# `paging_init` (`mm/memory.c`, and the class `memory` of `mm/memory.cpp`)

Both versions map memory up to `end_mem` twice, at its own addresses and at 3 GB.  A table that the
directory does not have yet is taken from `start_mem` on.  Pointers stand for the physical addresses
they lead to.
-/

namespace AphroditeOs

open PageTables

-- `linux/mm.h`
def pageP : Word := 0x001#32
def pageRw : Word := 0x002#32
def pageUs : Word := 0x004#32
def pageAccessed : Word := 0x020#32
def pageTable : Word := pageAccessed ||| pageUs ||| pageRw ||| pageP
def pageShared : Word := pageAccessed ||| pageUs ||| pageRw ||| pageP

/-- `PAGE_ALIGN`. -/
def pageAlign (x : Word) : Word := (x + pageSize - 1#32) &&& pageMask

/-- Memory and the variables of the loop. -/
structure PagingState where
  mem : BitMemory
  startMem : Word
  -- `pg_dir`, as an index of the directory
  pgDir : Nat
  address : Word

/-- The inner loop over a table, with `count` entries to go. -/
def fillPageTable (flags endMem : Word) : Nat → Word → PagingState → PagingState
  | 0, _, s => s
  | count + 1, pgTable, s => fillPageTable flags endMem count (pgTable + 4#32) { s with
      mem := s.mem.store32 pgTable.toNat (if s.address < endMem then s.address ||| flags else 0#32)
      address := s.address + pageSize }

/-- One pass of the outer loop, for the directory at address `dir`. -/
def pagingPass (tableFlags pageFlags endMem : Word) (dir : Nat) (s : PagingState) : PagingState :=
  let tmp := entry s.mem dir (s.pgDir + 768)
  let (tmp, s) :=
    if tmp = 0#32 then
      let tmp := s.startMem ||| tableFlags
      (tmp, { s with
        mem := setEntry s.mem dir (s.pgDir + 768) tmp
        startMem := s.startMem + pageSize })
    else (tmp, s)
  let s := { s with
    mem := setEntry s.mem dir s.pgDir tmp
    pgDir := s.pgDir + 1 }
  fillPageTable pageFlags endMem 1024 (tmp &&& pageMask) s

def pagingLoop (tableFlags pageFlags endMem : Word) (dir : Nat) :
    Nat → PagingState → Option PagingState
  | 0, _ => none
  | fuel + 1, s =>
    if s.address < endMem then
      pagingLoop tableFlags pageFlags endMem dir fuel (pagingPass tableFlags pageFlags endMem dir s)
    else some s

/-- After 1024 passes `address` is 0 again, and a loop that has not ended by then never does. -/
def pagingRun (tableFlags pageFlags startMem endMem : Word) (dir : Nat) (mem : BitMemory) :
    Option PagingState :=
  pagingLoop tableFlags pageFlags endMem dir 1024 ⟨mem, pageAlign startMem, 0, 0#32⟩

/-- The value returned, and memory. -/
def pagingInit (startMem endMem : Word) (swapperPgDir : Nat) (mem : BitMemory) :
    Option (Word × BitMemory) :=
  (pagingRun pageTable pageShared startMem endMem swapperPgDir mem).map fun s ↦ (s.startMem, s.mem)

namespace MemoryCpp

-- `mm/memory.h`
def pageP : Word := 0x001#32
def pageRw : Word := 0x002#32
def pageUser : Word := 0x004#32
def pageA : Word := 0x020#32
def pageTable : Word := pageP ||| pageRw ||| pageUser ||| pageA

/-- The class `memory`. -/
structure Memory where
  startMem : Word
  endMem : Word
  deriving DecidableEq, Repr

/-- `memory::paging_init`: the entries of the tables have the flags of the directory's. -/
def Memory.pagingInit (m : Memory) (pde : Nat) (mem : BitMemory) : Option (Memory × BitMemory) :=
  (pagingRun pageTable pageTable m.startMem m.endMem pde mem).map fun s ↦
    ({ m with startMem := s.startMem }, s.mem)

end MemoryCpp

/-! ## What the passes leave -/

/-- How many of the first `n` entries from 768 on are zero. -/
def newTables (mem : BitMemory) (dir n : Nat) : Nat :=
  Nat.count (fun i ↦ entry mem dir (768 + i) = 0#32) n

/-- How many tables memory up to `endMem` takes. -/
def tableCount (endMem : Word) : Nat := (endMem.toNat + (2 ^ 22 - 1)) / 2 ^ 22

/-- The directory entry that the windows get for table `i`. -/
def tableEntry (mem : BitMemory) (dir : Nat) (base flags : Word) (i : Nat) : Word :=
  if entry mem dir (768 + i) = 0#32 then base + BitVec.ofNat 32 (4096 * newTables mem dir i) ||| flags
  else entry mem dir (768 + i)

/-- The table entry for page `p`. -/
def pageEntry (endMem flags : Word) (p : Nat) : Word :=
  if 4096 * p < endMem.toNat then BitVec.ofNat 32 (4096 * p) ||| flags else 0#32

/-- The new tables lie below 2 GB and apart from the directory, and the tables that the directory
has already are different ones, apart from the directory and the new tables. -/
structure PagingRoom (mem : BitMemory) (dir : Nat) (base : Word) (n : Nat) : Prop where
  aligned : 4096 ∣ dir
  fits : base.toNat + 4096 * newTables mem dir n ≤ 2 ^ 31
  apart : dir + 4096 ≤ base.toNat ∨ base.toNat + 4096 * newTables mem dir n ≤ dir
  named : ∀ i < n, entry mem dir (768 + i) ≠ 0#32 → present (entry mem dir (768 + i)) = true ∧
    frame (entry mem dir (768 + i)) ≠ dir ∧ (frame (entry mem dir (768 + i)) < base.toNat ∨
      base.toNat + 4096 * newTables mem dir n ≤ frame (entry mem dir (768 + i)))
  distinct : ∀ i < n, ∀ j < n, entry mem dir (768 + i) ≠ 0#32 → entry mem dir (768 + j) ≠ 0#32 →
    i ≠ j → frame (entry mem dir (768 + i)) ≠ frame (entry mem dir (768 + j))

/-- The state after `n` passes from memory `mem` on. -/
structure PagingAfter (mem : BitMemory) (dir : Nat) (base tableFlags pageFlags endMem : Word) (n : Nat)
    (s : PagingState) : Prop where
  startMem : s.startMem = base + BitVec.ofNat 32 (4096 * newTables mem dir n)
  pgDir : s.pgDir = n
  address : s.address = BitVec.ofNat 32 (4096 * (1024 * n))
  windows : Windows s.mem dir 768 n (tableEntry mem dir base tableFlags) (pageEntry endMem pageFlags)
  rest : ∀ i, n ≤ i → i < 256 → entry s.mem dir (768 + i) = entry mem dir (768 + i)

section

variable {mem : BitMemory} {dir n : Nat} {base tableFlags pageFlags endMem : Word} {s : PagingState}

/-! ## The tables -/

theorem dvd_pageAlign (x : Word) : 4096 ∣ (pageAlign x).toNat := by
  have hmask := Align.toNat_and_not_sub_one (x + pageSize - 1#32) (a := pageSize) ⟨12, rfl⟩
  change (pageAlign x).toNat = _ at hmask
  rw [hmask, toNat_pageSize]
  exact Nat.dvd_mul_left _ _

theorem newTables_mono {i : Nat} (h : i ≤ n) : newTables mem dir i ≤ newTables mem dir n :=
  Nat.count_monotone _ h

theorem newTables_lt {i : Nat} (h : i < n) (hzero : entry mem dir (768 + i) = 0#32) :
    newTables mem dir i < newTables mem dir n := by
  have hsucc := @newTables_mono mem dir n (i + 1) h
  rw [newTables, Nat.count_succ, if_pos hzero] at hsucc
  exact hsucc

theorem frame_tableEntry (hroom : PagingRoom mem dir base n) (hbase : 4096 ∣ base.toNat)
    (hflags : tableFlags.toNat < 4096) {i : Nat} (hi : i < n) :
    frame (tableEntry mem dir base tableFlags i) =
      if entry mem dir (768 + i) = 0#32 then base.toNat + 4096 * newTables mem dir i
      else frame (entry mem dir (768 + i)) := by
  unfold tableEntry
  split
  next hzero =>
    have hlt := newTables_lt hi hzero
    have hfits := hroom.fits
    have hsum : (base + BitVec.ofNat 32 (4096 * newTables mem dir i)).toNat =
        base.toNat + 4096 * newTables mem dir i :=
      toNat_add_ofNat (by omega)
    rw [frame_or_flags (by omega) hflags, hsum]
  next => rfl

theorem present_tableEntry (hroom : PagingRoom mem dir base n)
    (hpresent : present tableFlags = true) {i : Nat} (hi : i < n) :
    present (tableEntry mem dir base tableFlags i) = true := by
  unfold tableEntry
  split
  next => exact present_or_flags hpresent
  next hne => exact (hroom.named i hi hne).1

theorem frame_tableEntry_ne_dir (hroom : PagingRoom mem dir base n) (hbase : 4096 ∣ base.toNat)
    (hflags : tableFlags.toNat < 4096) {i : Nat} (hi : i < n) :
    frame (tableEntry mem dir base tableFlags i) ≠ dir := by
  rw [frame_tableEntry hroom hbase hflags hi]
  split
  next hzero =>
    have hlt := newTables_lt hi hzero
    have hapart := hroom.apart
    omega
  next hne => exact (hroom.named i hi hne).2.1

theorem frame_tableEntry_injective (hroom : PagingRoom mem dir base n) (hbase : 4096 ∣ base.toNat)
    (hflags : tableFlags.toNat < 4096) {i j : Nat} (hi : i < n) (hj : j < n) (hij : i ≠ j) :
    frame (tableEntry mem dir base tableFlags i) ≠ frame (tableEntry mem dir base tableFlags j) := by
  rw [frame_tableEntry hroom hbase hflags hi, frame_tableEntry hroom hbase hflags hj]
  by_cases hzi : entry mem dir (768 + i) = 0#32
  · have hlti := newTables_lt hi hzi
    rw [if_pos hzi]
    by_cases hzj : entry mem dir (768 + j) = 0#32
    · rw [if_pos hzj]
      rcases Nat.lt_or_gt_of_ne hij with hlt | hgt
      · have := newTables_lt hlt hzi
        omega
      · have := newTables_lt hgt hzj
        omega
    · rw [if_neg hzj]
      have hout := (hroom.named j hj hzj).2.2
      omega
  · rw [if_neg hzi]
    by_cases hzj : entry mem dir (768 + j) = 0#32
    · have hltj := newTables_lt hj hzj
      have hout := (hroom.named i hi hzi).2.2
      rw [if_pos hzj]
      omega
    · rw [if_neg hzj]
      exact hroom.distinct i hi j hj hzi hzj hij

/-! ## One table -/

theorem fillPageTable_regs (flags endMem : Word) (count : Nat) (pgTable : Word) (s : PagingState) :
    (fillPageTable flags endMem count pgTable s).startMem = s.startMem ∧
      (fillPageTable flags endMem count pgTable s).pgDir = s.pgDir ∧
      (fillPageTable flags endMem count pgTable s).address =
        s.address + BitVec.ofNat 32 (4096 * count) := by
  induction count generalizing pgTable s with
  | zero => exact ⟨rfl, rfl, (BitVec.add_zero _).symm⟩
  | succ count ih =>
    have ⟨hstart, hdir, haddress⟩ := ih (pgTable + 4#32) { s with
      mem := s.mem.store32 pgTable.toNat (if s.address < endMem then s.address ||| flags else 0#32)
      address := s.address + pageSize }
    rw [fillPageTable, hstart, hdir, haddress, Nat.mul_add, BitVec.ofNat_add]
    refine ⟨rfl, rfl, ?_⟩
    unfold pageSize pageShift
    bv_omega

-- Whatever the memory holds, a pass moves on by one entry and 4 MB.
theorem pagingPass_regs (tableFlags pageFlags endMem : Word) (dir : Nat) (s : PagingState) :
    (pagingPass tableFlags pageFlags endMem dir s).pgDir = s.pgDir + 1 ∧
      (pagingPass tableFlags pageFlags endMem dir s).address = s.address + 0x400000#32 := by
  have hfill := fillPageTable_regs pageFlags endMem 1024
  simp only [pagingPass, hfill]
  split <;> exact ⟨rfl, rfl⟩

theorem iterate_pagingPass_regs (tableFlags pageFlags endMem : Word) (dir n : Nat)
    (s : PagingState) :
    ((pagingPass tableFlags pageFlags endMem dir)^[n] s).pgDir = s.pgDir + n ∧
      ((pagingPass tableFlags pageFlags endMem dir)^[n] s).address =
        s.address + BitVec.ofNat 32 (4096 * (1024 * n)) := by
  induction n with
  | zero => exact ⟨rfl, (BitVec.add_zero _).symm⟩
  | succ n ih =>
    have ⟨hpgDir, haddress⟩ := pagingPass_regs tableFlags pageFlags endMem dir
      ((pagingPass tableFlags pageFlags endMem dir)^[n] s)
    rw [Function.iterate_succ_apply', hpgDir, haddress, ih.1, ih.2, Nat.mul_add 1024 n 1,
      Nat.mul_add 4096, BitVec.ofNat_add, ← BitVec.add_assoc]
    exact ⟨rfl, rfl⟩

-- The loop sets the entries one after the other.
theorem fillPageTable_mem (flags endMem : Word) {count page i p : Nat} (s : PagingState)
    (hpage : 4096 ∣ page) (hpage' : page < 2 ^ 32) (hi : i + count ≤ 1024)
    (hp : 4096 * (p + i + count) ≤ 2 ^ 32)
    (haddress : s.address = BitVec.ofNat 32 (4096 * (p + i))) :
    (fillPageTable flags endMem count (BitVec.ofNat 32 (page + 4 * i)) s).mem =
      setEntries s.mem page (fun j ↦ pageEntry endMem flags (p + j)) count i := by
  induction count generalizing i s with
  | zero => rfl
  | succ count ih =>
    have hi' : i + 1 + count ≤ 1024 := by omega
    have hp' : 4096 * (p + (i + 1) + count) ≤ 2 ^ 32 := by omega
    have hslot : (BitVec.ofNat 32 (page + 4 * i)).toNat = page + 4 * i :=
      toNat_ofNat_of_lt (by omega)
    have hstep : BitVec.ofNat 32 (page + 4 * i) + 4#32 = BitVec.ofNat 32 (page + 4 * (i + 1)) := by
      rw [show page + 4 * (i + 1) = page + 4 * i + 4 by omega]
      exact (BitVec.ofNat_add _ _).symm
    have hvalue : (if s.address < endMem then s.address ||| flags else 0#32) =
        pageEntry endMem flags (p + i) := by
      rw [haddress]
      exact if_congr (by rw [BitVec.lt_def, toNat_ofNat_of_lt (by omega)]) rfl rfl
    have hnext : s.address + pageSize = BitVec.ofNat 32 (4096 * (p + (i + 1))) := by
      rw [haddress, ← Nat.add_assoc, Nat.mul_add 4096 (p + i) 1, BitVec.ofNat_add]
      rfl
    have hrest := ih (i := i + 1) { s with
      mem := s.mem.store32 (page + 4 * i) (pageEntry endMem flags (p + i))
      address := s.address + pageSize } hi' hp' hnext
    rw [fillPageTable, setEntries, hslot, hstep, hvalue, hrest]
    rfl

/-! ## The passes -/

theorem and_pageMask (x : Word) : x &&& pageMask = BitVec.ofNat 32 (frame x) := by
  apply BitVec.eq_of_toNat_eq
  have hmask := Align.toNat_and_not_sub_one x (a := pageSize) ⟨12, rfl⟩
  have hx := x.isLt
  change (x &&& pageMask).toNat = _ at hmask
  rw [hmask, toNat_pageSize, frame, toNat_ofNat_of_lt (by omega)]

/-- A pass up to its inner loop: the directory gets its entry for the low window, and for the kernel
window where that is new. -/
theorem PagingAfter.enter (hdir : 4096 ∣ dir) (hn : n < 256)
    (h : PagingAfter mem dir base tableFlags pageFlags endMem n s) :
    ∃ mem', (∀ i < 1024, entry mem' dir i =
        if i = n ∨ i = 768 + n then tableEntry mem dir base tableFlags n else entry s.mem dir i) ∧
      (∀ page, 4096 ∣ page → page ≠ dir → ∀ j < 1024, entry mem' page j = entry s.mem page j) ∧
      pagingPass tableFlags pageFlags endMem dir s =
        fillPageTable pageFlags endMem 1024
          (BitVec.ofNat 32 (frame (tableEntry mem dir base tableFlags n)))
          ⟨mem', base + BitVec.ofNat 32 (4096 * newTables mem dir (n + 1)), n + 1, s.address⟩ := by
  have hentry := h.rest n le_rfl hn
  have hcomm : s.pgDir + 768 = 768 + n := by
    rw [h.pgDir, Nat.add_comm]
  unfold pagingPass
  rw [hcomm, hentry, h.pgDir]
  by_cases hzero : entry mem dir (768 + n) = 0#32
  · have hvalue : tableEntry mem dir base tableFlags n = s.startMem ||| tableFlags := by
      rw [tableEntry, if_pos hzero, h.startMem]
    have hcount : newTables mem dir (n + 1) = newTables mem dir n + 1 := by
      rw [newTables, Nat.count_succ, if_pos hzero, newTables]
    have hstart : s.startMem + pageSize =
        base + BitVec.ofNat 32 (4096 * newTables mem dir (n + 1)) := by
      rw [h.startMem, hcount, Nat.mul_add, BitVec.ofNat_add, ← BitVec.add_assoc]
      rfl
    refine ⟨setEntry (setEntry s.mem dir (768 + n) (s.startMem ||| tableFlags)) dir n
      (s.startMem ||| tableFlags), fun i hi ↦ ?_, fun page hpage hne j hj ↦ ?_, ?_⟩
    · rw [entry_setEntry_setEntry _ _ hdir hdir (by omega) (by omega) hi, hvalue]
      simp [or_comm]
    · rw [entry_setEntry_setEntry _ _ hdir hpage (by omega) (by omega) hj,
        if_neg (fun hsame ↦ hne hsame.1)]
    · dsimp only
      rw [if_pos hzero, hvalue, ← and_pageMask, ← hstart]
  · have hvalue : tableEntry mem dir base tableFlags n = entry mem dir (768 + n) := by
      rw [tableEntry, if_neg hzero]
    have hcount : newTables mem dir (n + 1) = newTables mem dir n := by
      rw [newTables, Nat.count_succ, if_neg hzero, newTables, Nat.add_zero]
    refine ⟨setEntry s.mem dir n (entry mem dir (768 + n)), fun i hi ↦ ?_,
      fun page hpage hne j hj ↦ ?_, ?_⟩
    · rw [entry_setEntry _ _ hdir hdir (by omega) hi, hvalue]
      by_cases hlow : i = n
      · simp [hlow]
      · by_cases hhigh : i = 768 + n
        · simp [hhigh, hentry]
        · simp [hlow, hhigh]
    · rw [entry_setEntry _ _ hdir hpage (by omega) hj, if_neg (fun h ↦ hne h.1)]
    · dsimp only
      rw [if_neg hzero, hvalue, ← and_pageMask, hcount, ← h.startMem]
      dsimp only
      rw [h.pgDir]

theorem PagingAfter.pass {k : Nat} (hroom : PagingRoom mem dir base k) (hnk : n < k) (hk : k ≤ 256)
    (hbase : 4096 ∣ base.toNat) (hflags : tableFlags.toNat < 4096)
    (h : PagingAfter mem dir base tableFlags pageFlags endMem n s) :
    PagingAfter mem dir base tableFlags pageFlags endMem (n + 1)
      (pagingPass tableFlags pageFlags endMem dir s) := by
  have hdir := hroom.aligned
  have ⟨mem', hentries, hother, hpass⟩ := h.enter hdir (by omega)
  have hframe : ∀ i ≤ n, frame (tableEntry mem dir base tableFlags i) ≠ dir :=
    fun i hi ↦ frame_tableEntry_ne_dir hroom hbase hflags (by omega)
  have hdistinct : ∀ i < n, frame (tableEntry mem dir base tableFlags i) ≠
      frame (tableEntry mem dir base tableFlags n) :=
    fun i hi ↦ frame_tableEntry_injective hroom hbase hflags (by omega) hnk (by omega)
  have hlt : frame (tableEntry mem dir base tableFlags n) < 2 ^ 32 := by
    have := (tableEntry mem dir base tableFlags n).isLt
    unfold frame
    omega
  have hmem := @fillPageTable_mem pageFlags endMem 1024 _ 0 (1024 * n)
    ⟨mem', base + BitVec.ofNat 32 (4096 * newTables mem dir (n + 1)), n + 1, s.address⟩
    (dvd_frame _) hlt (by omega) (by omega) h.address
  rw [Nat.mul_zero, Nat.add_zero] at hmem
  have hstart := (fillPageTable_regs pageFlags endMem 1024
    (BitVec.ofNat 32 (frame (tableEntry mem dir base tableFlags n)))
    ⟨mem', base + BitVec.ofNat 32 (4096 * newTables mem dir (n + 1)), n + 1, s.address⟩).1
  have ⟨hpgDir, haddress⟩ := pagingPass_regs tableFlags pageFlags endMem dir s
  rw [hpass] at hpgDir haddress ⊢
  constructor
  · exact hstart
  · rw [hpgDir, h.pgDir]
  · rw [haddress, h.address, Nat.mul_add 1024 n 1, Nat.mul_add 4096, BitVec.ofNat_add]
  · rw [hmem]
    exact h.windows.pass hdir (by omega) (by omega) hentries hother hframe hdistinct
  · intro i hi hi'
    rw [hmem, entry_setEntries mem' _ (dvd_frame _) hdir (by omega) (by omega),
      if_neg (fun hr ↦ hframe n le_rfl hr.1.symm), hentries _ (by omega), if_neg (by omega),
      h.rest i (by omega) hi']

/-! ## The whole loop -/

theorem pagingAfter_zero (mem : BitMemory) (dir : Nat) (base tableFlags pageFlags endMem : Word) :
    PagingAfter mem dir base tableFlags pageFlags endMem 0 ⟨mem, base, 0, 0#32⟩ := by
  constructor
  · exact (BitVec.add_zero base).symm
  · rfl
  · rfl
  · exact ⟨fun i hi ↦ by omega, fun i hi ↦ by omega, fun i hi ↦ by omega⟩
  · exact fun i _ _ ↦ rfl

theorem pagingAfter_iterate {k : Nat} (hroom : PagingRoom mem dir base k) (hk : k ≤ 256)
    (hbase : 4096 ∣ base.toNat) (hflags : tableFlags.toNat < 4096) (hn : n ≤ k) :
    PagingAfter mem dir base tableFlags pageFlags endMem n
      ((pagingPass tableFlags pageFlags endMem dir)^[n] ⟨mem, base, 0, 0#32⟩) := by
  induction n with
  | zero => exact pagingAfter_zero mem dir base tableFlags pageFlags endMem
  | succ n ih =>
    rw [Function.iterate_succ_apply']
    exact (ih (by omega)).pass hroom hn hk hbase hflags

theorem pagingLoop_eq_run (tableFlags pageFlags endMem : Word) (dir fuel : Nat) (s : PagingState) :
    pagingLoop tableFlags pageFlags endMem dir fuel s =
      WhileLoop.run (fun s ↦ s.address < endMem) (pagingPass tableFlags pageFlags endMem dir) fuel
        s := by
  induction fuel generalizing s with
  | zero => rfl
  | succ fuel ih => rw [pagingLoop, WhileLoop.run, ih]

theorem tableCount_le (hend : endMem.toNat ≤ 2 ^ 30) : tableCount endMem ≤ 256 := by
  unfold tableCount
  omega

-- The loop goes on exactly while tables are missing.
theorem address_lt_iff (endMem : Word) (hn : n ≤ 256) {address : Word}
    (h : address = BitVec.ofNat 32 (4096 * (1024 * n))) :
    address < endMem ↔ n < tableCount endMem := by
  rw [h, BitVec.lt_def, toNat_ofNat_of_lt (by omega), tableCount]
  omega

-- Up to 1 GB the loop ends, whatever the memory holds.
theorem endsAfter_tableCount (tableFlags pageFlags : Word) (dir : Nat)
    (hend : endMem.toNat ≤ 2 ^ 30) (hs : s.address = 0#32) :
    WhileLoop.EndsAfter (fun s ↦ s.address < endMem) (pagingPass tableFlags pageFlags endMem dir)
      (tableCount endMem) s := by
  have hcount := tableCount_le hend
  have hgoes : ∀ i ≤ 256, ((pagingPass tableFlags pageFlags endMem dir)^[i] s).address < endMem ↔
      i < tableCount endMem := by
    intro i hi
    have haddress := (iterate_pagingPass_regs tableFlags pageFlags endMem dir i s).2
    rw [hs, BitVec.zero_add] at haddress
    exact address_lt_iff endMem hi haddress
  constructor
  · intro i hi
    rw [hgoes i (by omega)]
    exact hi
  · rw [hgoes _ hcount]
    exact lt_irrefl _

end

/-- Memory below `endMem` is mapped at its own addresses and at 3 GB, through different tables, and
the last table maps nothing more. -/
structure TwoWindows (mem : BitMemory) (dir : Nat) (endMem : Word) : Prop where
  low : ∀ a : Word, 4096 ∣ a.toNat → a < endMem →
    MapsPage mem dir a a.toNat pageShared.toNat
  kernel : ∀ a : Word, 4096 ∣ a.toNat → a < endMem →
    MapsPage mem dir (va a) a.toNat pageShared.toNat
  shared : ∀ i < tableCount endMem, entry mem dir (768 + i) = entry mem dir i
  distinct : ∀ i < tableCount endMem, ∀ j < tableCount endMem, i ≠ j →
    frame (entry mem dir i) ≠ frame (entry mem dir j)
  rest : ∀ i, tableCount endMem = i + 1 → ∀ j < 1024, endMem.toNat ≤ 4096 * (1024 * i + j) →
    entry mem (frame (entry mem dir i)) j = 0#32

section

variable {mem : BitMemory} {dir : Nat} {startMem endMem : Word}

theorem PagingAfter.twoWindows {base : Word} {s : PagingState} (hend : endMem.toNat ≤ 2 ^ 30)
    (hroom : PagingRoom mem dir base (tableCount endMem)) (hbase : 4096 ∣ base.toNat)
    (h : PagingAfter mem dir base pageTable pageShared endMem (tableCount endMem) s) :
    TwoWindows s.mem dir endMem := by
  have hflags : pageTable.toNat < 4096 := by decide
  have hpresent : ∀ i < tableCount endMem,
      present (tableEntry mem dir base pageTable i) = true :=
    fun i hi ↦ present_tableEntry hroom (by decide) hi
  -- both windows lead to the entry of the page
  have hmaps : ∀ a v : Word, 4096 ∣ a.toNat → a < endMem →
      (v.toNat / 4096 = a.toNat / 4096 ∨ v.toNat / 4096 = 1024 * 768 + a.toNat / 4096) →
      MapsPage s.mem dir v a.toNat pageShared.toNat := by
    intro a v hpage hlt hv
    rw [BitVec.lt_def] at hlt
    have hword : BitVec.ofNat 32 (4096 * (a.toNat / 4096)) = a := by
      apply BitVec.eq_of_toNat_eq
      rw [toNat_ofNat_of_lt (by omega)]
      omega
    have hentry : pageEntry endMem pageShared (a.toNat / 4096) = a ||| pageShared := by
      rw [pageEntry, if_pos (by omega), hword]
    have hnumber : a.toNat / 4096 < 1024 * tableCount endMem := by
      unfold tableCount
      omega
    have hwalk := h.windows.walk hpresent hnumber
      (by rw [hentry]; exact present_or_flags (by decide)) hv
    rw [hentry] at hwalk
    refine ⟨_, hwalk, frame_or_flags hpage (by decide), ?_⟩
    rw [toNat_or_flags hpage (by decide)]
    have hlow : pageShared.toNat < 4096 := by decide
    omega
  constructor
  · exact fun a hpage hlt ↦ hmaps a a hpage hlt (Or.inl rfl)
  · intro a hpage hlt
    refine hmaps a (va a) hpage hlt (Or.inr ?_)
    rw [BitVec.lt_def] at hlt
    have hva : (va a).toNat = a.toNat + 0xC0000000 := by
      unfold va pageOffset
      bv_omega
    omega
  · exact fun i hi ↦ (h.windows.high i hi).trans (h.windows.low i hi).symm
  · intro i hi j hj hij
    rw [h.windows.low i hi, h.windows.low j hj]
    exact frame_tableEntry_injective hroom hbase hflags hi hj hij
  · intro i hi j hj hout
    rw [h.windows.low i (by omega), h.windows.ptes i (by omega) j hj, pageEntry, if_neg (by omega)]

theorem pagingRun_spec (hend : endMem.toNat ≤ 2 ^ 30)
    (hroom : PagingRoom mem dir (pageAlign startMem) (tableCount endMem)) :
    ∃ t, pagingRun pageTable pageShared startMem endMem dir mem = some t ∧
      t.startMem.toNat = (pageAlign startMem).toNat + 4096 * newTables mem dir (tableCount endMem) ∧
      TwoWindows t.mem dir endMem := by
  have hbase := dvd_pageAlign startMem
  have hcount := tableCount_le hend
  have hafter := @pagingAfter_iterate mem dir (tableCount endMem) (pageAlign startMem) pageTable
    pageShared endMem (tableCount endMem) hroom hcount hbase (by decide) le_rfl
  have hends := @endsAfter_tableCount endMem ⟨mem, pageAlign startMem, 0, 0#32⟩ pageTable pageShared
    dir hend rfl
  have hrun : pagingRun pageTable pageShared startMem endMem dir mem =
      some ((pagingPass pageTable pageShared endMem dir)^[tableCount endMem]
        ⟨mem, pageAlign startMem, 0, 0#32⟩) := by
    rw [pagingRun, pagingLoop_eq_run, hends.run_eq (by omega)]
  refine ⟨_, hrun, ?_, hafter.twoWindows hend hroom hbase⟩
  have hfits := hroom.fits
  rw [hafter.startMem]
  exact toNat_add_ofNat (by omega)

end

/-- **The two windows.**  With memory up to 1 GB, and room for the new tables, both versions of
`paging_init` map memory twice, and move `start_mem` behind the new tables. -/
theorem paging_windows {startMem endMem : Word} {dir : Nat} {mem : BitMemory}
    (hend : endMem.toNat ≤ 2 ^ 30)
    (hroom : PagingRoom mem dir (pageAlign startMem) (tableCount endMem)) :
    (∃ ret mem', pagingInit startMem endMem dir mem = some (ret, mem') ∧
      ret.toNat = (pageAlign startMem).toNat + 4096 * newTables mem dir (tableCount endMem) ∧
      TwoWindows mem' dir endMem) ∧
    ∃ m mem', MemoryCpp.Memory.pagingInit ⟨startMem, endMem⟩ dir mem = some (m, mem') ∧
      m.startMem.toNat = (pageAlign startMem).toNat + 4096 * newTables mem dir (tableCount endMem) ∧
      TwoWindows mem' dir endMem := by
  have ⟨t, hrun, hstart, hwindows⟩ := pagingRun_spec hend hroom
  constructor
  · refine ⟨t.startMem, t.mem, ?_, hstart, hwindows⟩
    rw [pagingInit, hrun]
    rfl
  · -- the flags are the same bits in another order
    have hflags : MemoryCpp.pageTable = pageTable := by decide
    have hflags' : MemoryCpp.pageTable = pageShared := by decide
    refine ⟨⟨t.startMem, endMem⟩, t.mem, ?_, hstart, hwindows⟩
    have hrun' : pagingRun MemoryCpp.pageTable MemoryCpp.pageTable startMem endMem dir mem =
        some t := by
      rw [← hrun]
      exact congrArg₂ (fun f g ↦ pagingRun f g startMem endMem dir mem) hflags hflags'
    rw [MemoryCpp.Memory.pagingInit, hrun']
    rfl

-- In cleared memory every entry is zero.
theorem entry_cleared (page i : Nat) : entry (fun _ ↦ false) page i = 0#32 := by
  apply BitVec.eq_of_getLsbD_eq
  intro j hj
  rw [entry, BitMemory.getLsbD_word32 _ _ hj, BitVec.getLsbD_zero]

theorem newTables_cleared (dir n : Nat) : newTables (fun _ ↦ false) dir n = n := by
  rw [newTables, Nat.count_iff_forall]
  exact fun i _ ↦ entry_cleared dir (768 + i)

/-- A directory at 0x101000 that names a table at 0x102000 for the first 4 MB from 3 GB on. -/
def oneTableMemory : BitMemory := BitMemory.store32 (fun _ ↦ false) 0x101C00 0x102007#32

theorem entry_oneTableMemory : entry oneTableMemory 0x101000 768 = 0x102007#32 ∧
    entry oneTableMemory 0x101000 769 = 0#32 ∧ newTables oneTableMemory 0x101000 2 = 1 := by
  decide +kernel

/-- 6 MB, with the first table kept and the new one from 2 MB on. -/
theorem oneTableMemory_windows :
    ∃ ret mem', pagingInit 0x200000#32 0x600000#32 0x101000 oneTableMemory = some (ret, mem') ∧
      ret.toNat = 0x201000 ∧ TwoWindows mem' 0x101000 0x600000#32 := by
  have hcount : tableCount 0x600000#32 = 2 := by decide
  have hbase : (pageAlign 0x200000#32).toNat = 0x200000 := by decide
  obtain ⟨hfirst, hsecond, hnew⟩ := entry_oneTableMemory
  have hkept : ∀ i < 2, entry oneTableMemory 0x101000 (768 + i) ≠ 0#32 → i = 0 := by
    intro i hi hne
    interval_cases i
    · rfl
    · exact absurd hsecond hne
  have hroom : PagingRoom oneTableMemory 0x101000 (pageAlign 0x200000#32)
      (tableCount 0x600000#32) := by
    rw [hcount]
    constructor
    · decide
    · rw [hnew, hbase]
      decide
    · rw [hnew, hbase]
      decide
    · intro i hi hne
      rw [hkept i hi hne, hfirst, hbase]
      decide
    · intro i hi j hj hne hne' hij
      exact absurd ((hkept i hi hne).trans (hkept j hj hne').symm) hij
  have ⟨ret, mem', hrun, hret, hwindows⟩ := (paging_windows (by decide) hroom).1
  rw [hcount, hnew, hbase] at hret
  exact ⟨ret, mem', hrun, hret, hwindows⟩

/-- With an empty directory in the page that `start_mem` names, the first new table is the directory
itself, and its entries clear the kernel window. -/
theorem tableOverDirectory_not_windows :
    (∀ i, entry (fun _ ↦ false) 0x101000 (768 + i) = 0#32) ∧
      ∃ ret mem', pagingInit 0x101000#32 0x1000#32 0x101000 (fun _ ↦ false) = some (ret, mem') ∧
        ¬ TwoWindows mem' 0x101000 0x1000#32 := by
  constructor
  · exact fun i ↦ entry_cleared _ _
  have hstart := pagingAfter_zero (fun _ ↦ false) 0x101000 (pageAlign 0x101000#32) pageTable
    pageShared 0x1000#32
  have ⟨mem', _, _, hpass⟩ := hstart.enter (by decide) (by decide)
  have hframe : frame (tableEntry (fun _ ↦ false) 0x101000 (pageAlign 0x101000#32) pageTable 0) =
      0x101000 := by
    rw [tableEntry, if_pos (entry_cleared _ _), newTables_cleared]
    decide
  rw [hframe] at hpass
  have hmem := @fillPageTable_mem pageShared 0x1000#32 1024 0x101000 0 0
    ⟨mem', pageAlign 0x101000#32 +
      BitVec.ofNat 32 (4096 * newTables (fun _ ↦ false) 0x101000 (0 + 1)), 0 + 1, 0#32⟩
    (by decide) (by decide) (by decide) (by decide) rfl
  have haddress := (fillPageTable_regs pageShared 0x1000#32 1024 (BitVec.ofNat 32 0x101000)
    ⟨mem', pageAlign 0x101000#32 +
      BitVec.ofNat 32 (4096 * newTables (fun _ ↦ false) 0x101000 (0 + 1)), 0 + 1, 0#32⟩).2.2
  rw [Nat.mul_zero, Nat.add_zero] at hmem
  change _ = 0#32 + BitVec.ofNat 32 (4096 * 1024) at haddress
  generalize fillPageTable pageShared 0x1000#32 1024 (BitVec.ofNat 32 0x101000) _ = t at *
  have hrun : pagingRun pageTable pageShared 0x101000#32 0x1000#32 0x101000 (fun _ ↦ false) =
      some t := by
    rw [pagingRun, show 1024 = 1022 + 1 + 1 from rfl, pagingLoop, if_pos (by decide), hpass,
      pagingLoop, haddress, if_neg (by decide)]
  refine ⟨t.startMem, t.mem, by rw [pagingInit, hrun]; rfl, fun h ↦ ?_⟩
  -- entry 768 of the new table is behind the end of memory
  have hentry : entry t.mem 0x101000 768 = 0#32 := by
    rw [hmem, entry_setEntries mem' _ (by decide) (by decide) (by decide) (by decide),
      if_pos (by decide)]
    decide
  have ⟨e, hwalk, _⟩ := h.kernel 0#32 (by decide) (by decide)
  have habsent : present 0#32 = false := rfl
  rw [walk, show (va 0#32).toNat / 2 ^ 22 = 768 by decide, hentry, habsent,
    if_neg Bool.false_ne_true] at hwalk
  cases hwalk

end AphroditeOs
