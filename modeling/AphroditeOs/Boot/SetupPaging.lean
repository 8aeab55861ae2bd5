import AphroditeOs.Realmode.EndMem

/-!
# `setup_paging` (`boot/head.s` and `boot/loader.s`)

Both fill one page table from its last entry down, and stop on the flags of the subtraction.
Addresses are physical.
-/

namespace AphroditeOs

open PageTables

/-- `rep stosd` with the direction flag clear. -/
def repStosd (eax : Word) : Nat → Word → BitMemory → BitMemory
  | 0, _, mem => mem
  | ecx + 1, edi, mem => repStosd eax ecx (edi + 4#32) (mem.store32 edi.toNat eax)

/-- `CONTINUE_INIT_PTE` and `INIT_PG0`: `stosd` with the direction flag set and `sub eax, 01000H`,
after which `jump` tells from the old `eax` whether the loop goes on. -/
def initPte (jump : Word → Bool) : Nat → Word → Word → BitMemory → Option BitMemory
  | 0, _, _, _ => none
  | fuel + 1, eax, edi, mem =>
    let mem := mem.store32 edi.toNat eax
    if jump eax then initPte jump fuel (eax - 0x1000#32) (edi - 4#32) mem else some mem

def setupPagingWith (jump : Word → Bool) (pde pte0 : Word) (mem : BitMemory) : Option BitMemory :=
  let mem := repStosd 0#32 (1024 * 2) pde mem
  let mem := mem.store32 pde.toNat (pte0 + 7#32)
  let mem := mem.store32 (pde + 3072#32).toNat (pte0 + 7#32)
  initPte jump 1024 0x3FF007#32 (pte0 + 4092#32) mem

namespace HeadS

/-- `jge` after the subtraction. -/
def jge (eax : Word) : Bool := (0x1000#32).sle eax

def pde : Word := 0x1000#32

def pte0 : Word := 0x2000#32

def setupPaging (mem : BitMemory) : Option BitMemory := setupPagingWith jge pde pte0 mem

end HeadS

namespace LoaderS

/-- `jae` after the subtraction. -/
def jae (eax : Word) : Bool := (0x1000#32).ule eax

/-- `pg0` is the page behind `swapper_pg_dir`. -/
def setupPaging (swapperPgDir : Word) (mem : BitMemory) : Option BitMemory :=
  setupPagingWith jae swapperPgDir (swapperPgDir + 0x1000#32) mem

end LoaderS

/-- Which addresses are mapped: 4 MB from 0 on, and the same 4 MB at 3 GB. -/
def bootTranslate (va : Word) : Option Nat :=
  if va.toNat / 2 ^ 22 = 0 ∨ va.toNat / 2 ^ 22 = 768 then some (va.toNat % 2 ^ 22) else none

/-- The page directory at `pde` maps as `bootTranslate` says, and apart from the two pages that are
the tables nothing in memory has changed. -/
structure PagingSetUp (pde : Word) (mem mem' : BitMemory) : Prop where
  translate : ∀ va, translate mem' pde.toNat va = bootTranslate va
  frame : ∀ n, n < 8 * pde.toNat ∨ 8 * (pde.toNat + 8192) ≤ n → mem' n = mem n

/-! ## The loops -/

theorem repStosd_zero {mem : BitMemory} {ecx n : Nat} {edi : Word}
    (hfit : edi.toNat + 4 * ecx ≤ 2 ^ 32) : repStosd 0#32 ecx edi mem n =
      if 8 * edi.toNat ≤ n ∧ n < 8 * (edi.toNat + 4 * ecx) then false else mem n := by
  induction ecx generalizing edi mem with
  | zero => rw [repStosd, if_neg (by omega)]
  | succ ecx ih =>
    have hstore : mem.store32 edi.toNat 0#32 n =
        if 8 * edi.toNat ≤ n ∧ n < 8 * (edi.toNat + 4) then false else mem n := by
      unfold BitMemory.store32
      rw [BitVec.getLsbD_zero]
    rw [repStosd]
    rcases Nat.eq_zero_or_pos ecx with rfl | hpos
    · exact hstore
    · have hnext : (edi + 4#32).toNat = edi.toNat + 4 := by
        rw [BitVec.toNat_add, show (4#32).toNat = 4 from rfl, Nat.mod_eq_of_lt (by omega)]
      rw [ih (by omega), hnext, hstore]
      split_ifs <;> first | rfl | omega

section

variable {jump : Word → Bool} {page i : Nat}

/-- The table from entry `i` down to entry 0, below which `jump` ends the loop. -/
theorem initPte_spec (hjump : ∀ k < 1024, jump (BitVec.ofNat 32 (4096 * k + 7)) = decide (0 < k))
    (hpage : page + 4096 ≤ 2 ^ 32) (hi : i < 1024) {fuel : Nat} (hfuel : i < fuel)
    (mem : BitMemory) :
    ∃ mem', initPte jump fuel (BitVec.ofNat 32 (4096 * i + 7)) (BitVec.ofNat 32 (page + 4 * i))
        mem = some mem' ∧ (∀ j ≤ i, entry mem' page j = BitVec.ofNat 32 (4096 * j + 7)) ∧
      ∀ n, n < 8 * page ∨ 8 * (page + 4 * (i + 1)) ≤ n → mem' n = mem n := by
  induction i generalizing fuel mem with
  | zero =>
    obtain ⟨fuel, rfl⟩ := Nat.exists_eq_add_of_lt hfuel
    have hslot : (BitVec.ofNat 32 (page + 4 * 0)).toNat = page :=
      toNat_ofNat_of_lt (by omega)
    refine ⟨mem.store32 page (BitVec.ofNat 32 (4096 * 0 + 7)), ?_, fun j hj ↦ ?_, fun n hn ↦ ?_⟩
    · rw [initPte, hjump 0 hi, hslot]
      exact if_neg (by decide)
    · obtain rfl := Nat.le_zero.mp hj
      exact BitMemory.word32_store32_self mem page _
    · exact BitMemory.store32_of_outside (by omega)
  | succ i ih =>
    obtain ⟨fuel, rfl⟩ := Nat.exists_eq_add_of_lt hfuel
    have hslot : (BitVec.ofNat 32 (page + 4 * (i + 1))).toNat = page + 4 * (i + 1) :=
      toNat_ofNat_of_lt (by omega)
    have hvalue : BitVec.ofNat 32 (4096 * (i + 1) + 7) - 0x1000#32 =
        BitVec.ofNat 32 (4096 * i + 7) := by
      rw [show 4096 * (i + 1) + 7 = 4096 * i + 7 + 4096 by ring, BitVec.ofNat_add]
      exact BitVec.add_sub_cancel _ _
    have hnext : BitVec.ofNat 32 (page + 4 * (i + 1)) - 4#32 = BitVec.ofNat 32 (page + 4 * i) := by
      rw [show page + 4 * (i + 1) = page + 4 * i + 4 by ring, BitVec.ofNat_add]
      exact BitVec.add_sub_cancel _ _
    obtain ⟨mem', hrun, hentries, hframe⟩ := ih (by omega)
      (show i < i + 1 + fuel by omega)
      (mem.store32 (page + 4 * (i + 1)) (BitVec.ofNat 32 (4096 * (i + 1) + 7)))
    refine ⟨mem', ?_, fun j hj ↦ ?_, fun n hn ↦ ?_⟩
    · rw [initPte, hjump _ hi, if_pos (decide_eq_true (Nat.succ_pos i)), hslot, hvalue, hnext]
      exact hrun
    · rcases Nat.eq_or_lt_of_le hj with rfl | hlt
      · -- the entries below it leave it as it is
        rw [entry, BitMemory.word32_congr fun k hk ↦ hframe _ (by omega)]
        exact BitMemory.word32_store32_self mem _ _
      · exact hentries j (Nat.le_of_lt_succ hlt)
    · rw [hframe n (by omega)]
      exact BitMemory.store32_of_outside (by omega)

end

/-! ## The two versions -/

section

variable {jump : Word → Bool} {pde : Word}

/-- The entries of the two pages: two of the directory name the table, and the table is full. -/
theorem setupPagingWith_entries
    (hjump : ∀ k < 1024, jump (BitVec.ofNat 32 (4096 * k + 7)) = decide (0 < k))
    (hpde : 4096 ∣ pde.toNat) (hfit : pde.toNat + 8192 < 2 ^ 32) (mem : BitMemory) :
    ∃ mem', setupPagingWith jump pde (pde + 0x1000#32) mem = some mem' ∧
      (∀ i < 1024, entry mem' pde.toNat i =
        if i = 0 ∨ i = 768 then pde + 0x1000#32 + 7#32 else 0#32) ∧
      (∀ j < 1024, entry mem' (pde.toNat + 4096) j = BitVec.ofNat 32 (4096 * j + 7)) ∧
      ∀ n, n < 8 * pde.toNat ∨ 8 * (pde.toNat + 8192) ≤ n → mem' n = mem n := by
  have htable : (pde + 0x1000#32).toNat = pde.toNat + 4096 :=
    BitVec.toNat_add_of_lt (show pde.toNat + 4096 < 2 ^ 32 by omega)
  have hhigh : (pde + 3072#32).toNat = pde.toNat + 4 * 768 :=
    BitVec.toNat_add_of_lt (show pde.toNat + 3072 < 2 ^ 32 by omega)
  have hlast : pde + 0x1000#32 + 4092#32 = BitVec.ofNat 32 (pde.toNat + 4096 + 4 * 1023) := by
    apply BitVec.eq_of_toNat_eq
    rw [BitVec.toNat_add_of_lt (by rw [htable]; show pde.toNat + 4096 + 4092 < 2 ^ 32; omega), htable,
      show (4092#32).toNat = 4 * 1023 from rfl, toNat_ofNat_of_lt (by omega)]
  obtain ⟨mem₁, hmem₁⟩ : ∃ mem₁, mem₁ = repStosd 0#32 (1024 * 2) pde mem := ⟨_, rfl⟩
  have hzero : ∀ n, mem₁ n = if 8 * pde.toNat ≤ n ∧ n < 8 * (pde.toNat + 8192) then false
      else mem n := fun n ↦ by rw [hmem₁, repStosd_zero (by omega)]
  obtain ⟨mem', hrun, hentries, hframe⟩ := initPte_spec hjump
    (show pde.toNat + 4096 + 4096 ≤ 2 ^ 32 by omega) (show 1023 < 1024 by decide)
    (show 1023 < 1024 by decide) (setEntry (setEntry mem₁ pde.toNat 0 (pde + 0x1000#32 + 7#32))
      pde.toNat 768 (pde + 0x1000#32 + 7#32))
  refine ⟨mem', ?_, fun i hi ↦ ?_, fun j hj ↦ hentries j (by omega), fun n hn ↦ ?_⟩
  · unfold setEntry at hrun
    rw [Nat.mul_zero, Nat.add_zero] at hrun
    unfold setupPagingWith
    dsimp only
    rw [hhigh, hlast, ← hmem₁, show 0x3FF007#32 = BitVec.ofNat 32 (4096 * 1023 + 7) from rfl]
    exact hrun
  · have hcleared : entry mem₁ pde.toNat i = 0#32 := by
      apply BitVec.eq_of_getLsbD_eq
      intro k hk
      rw [entry, BitMemory.getLsbD_word32 _ _ hk, hzero, if_pos (by omega), BitVec.getLsbD_zero]
    rw [entry, BitMemory.word32_congr fun k hk ↦ hframe _ (by omega)]
    exact (entry_setEntry_setEntry mem₁ _ hpde hpde (by decide) (by decide) hi).trans
      (by simp only [true_and, hcleared])
  · rw [hframe n (by omega)]
    unfold setEntry
    rw [BitMemory.store32_of_outside (by omega), BitMemory.store32_of_outside (by omega), hzero,
      if_neg (by omega)]

/-- The table maps 4 MB, and the directory names it twice. -/
theorem setupPagingWith_spec
    (hjump : ∀ k < 1024, jump (BitVec.ofNat 32 (4096 * k + 7)) = decide (0 < k))
    (hpde : 4096 ∣ pde.toNat) (hfit : pde.toNat + 8192 < 2 ^ 32) (mem : BitMemory) :
    ∃ mem', setupPagingWith jump pde (pde + 0x1000#32) mem = some mem' ∧
      PagingSetUp pde mem mem' := by
  obtain ⟨mem', hrun, hdir, htable, hframe⟩ := setupPagingWith_entries hjump hpde hfit mem
  refine ⟨mem', hrun, fun va ↦ ?_, hframe⟩
  have hva := va.isLt
  have hentry := hdir (va.toNat / 2 ^ 22) (by omega)
  unfold bootTranslate
  by_cases hmapped : va.toNat / 2 ^ 22 = 0 ∨ va.toNat / 2 ^ 22 = 768
  · rw [if_pos hmapped] at hentry ⊢
    have htop : (pde + 0x1000#32).toNat = pde.toNat + 4096 :=
      BitVec.toNat_add_of_lt (show pde.toNat + 4096 < 2 ^ 32 by omega)
    have hflags : (7#32).toNat < 4096 := by decide
    rw [add_flags (by omega) hflags] at hentry
    have hslot : va.toNat / 4096 % 1024 < 1024 := Nat.mod_lt _ (by decide)
    have hpte := htable _ hslot
    have hpage : 4096 ∣ (BitVec.ofNat 32 (4096 * (va.toNat / 4096 % 1024))).toNat := by
      rw [toNat_ofNat_of_lt (by omega)]
      exact Nat.dvd_mul_right _ _
    rw [BitVec.ofNat_add, add_flags hpage hflags] at hpte
    have hto : frame (pde + 0x1000#32 ||| 7#32) = pde.toNat + 4096 := by
      rw [frame_or_flags (by omega) hflags, htop]
    rw [← hto] at hpte
    rw [PageTables.translate, walk_eq hentry (present_or_flags (by decide)) (by
      rw [hpte]
      exact present_or_flags (by decide)), hpte, Option.map_some, frame_or_flags hpage hflags,
      toNat_ofNat_of_lt (by omega)]
    exact congrArg some (by omega)
  · rw [if_neg hmapped] at hentry ⊢
    rw [PageTables.translate, walk, hentry, if_neg (by decide)]
    rfl

end

theorem jge_eq {k : Nat} (hk : k < 1024) :
    HeadS.jge (BitVec.ofNat 32 (4096 * k + 7)) = decide (0 < k) := by
  have hnat : (BitVec.ofNat 32 (4096 * k + 7)).toNat = 4096 * k + 7 := toNat_ofNat_of_lt (by omega)
  have hint : (BitVec.ofNat 32 (4096 * k + 7)).toInt = 4096 * k + 7 := by
    rw [BitVec.toInt_eq_toNat_of_lt (by omega), hnat]
    norm_cast
  rw [HeadS.jge, BitVec.sle_eq_decide, hint, show (0x1000#32).toInt = 4096 from rfl]
  exact decide_eq_decide.mpr (by omega)

theorem jae_eq {k : Nat} (hk : k < 1024) :
    LoaderS.jae (BitVec.ofNat 32 (4096 * k + 7)) = decide (0 < k) := by
  have hnat : (BitVec.ofNat 32 (4096 * k + 7)).toNat = 4096 * k + 7 := toNat_ofNat_of_lt (by omega)
  rw [LoaderS.jae, BitVec.ule_eq_decide, hnat, show (0x1000#32).toNat = 4096 from rfl]
  exact decide_eq_decide.mpr (by omega)

/-- **The first 4 MB, twice.**  Counting down with `jge` and with `jae` both end behind entry 0. -/
theorem setupPaging_translates {swapperPgDir : Word} (hdir : 4096 ∣ swapperPgDir.toNat)
    (hfit : swapperPgDir.toNat + 8192 < 2 ^ 32) (mem : BitMemory) :
    (∃ mem', HeadS.setupPaging mem = some mem' ∧ PagingSetUp HeadS.pde mem mem') ∧
      ∃ mem', LoaderS.setupPaging swapperPgDir mem = some mem' ∧
        PagingSetUp swapperPgDir mem mem' :=
  ⟨setupPagingWith_spec (fun _ hk ↦ jge_eq hk) (show 4096 ∣ HeadS.pde.toNat by decide)
      (by decide) mem,
    setupPagingWith_spec (fun _ hk ↦ jae_eq hk) hdir hfit mem⟩

/-- A loader that is linked at 1 MB. -/
theorem setupPaging_translates_megabyte :
    ∃ mem', LoaderS.setupPaging 0x101000#32 (fun _ ↦ false) = some mem' ∧
      PagingSetUp 0x101000#32 (fun _ ↦ false) mem' :=
  (setupPaging_translates (by decide) (by decide) fun _ ↦ false).2

/-! ## The pager behind `head.s` -/

open MemoryCpp (Memory totalMem)

-- The directory of `head.s` has one table for the kernel, so the pager's new tables can be anywhere
-- behind it.
theorem pagingRoom_of_entries {mem : BitMemory} {base : Word} {n : Nat} (hn : n ≤ 256)
    (hentries : ∀ i < 1024, entry mem 0x1000 i =
      if i = 0 ∨ i = 768 then HeadS.pde + 0x1000#32 + 7#32 else 0#32)
    (hlow : 0x3000 ≤ base.toNat) (hhigh : base.toNat + 4096 * n ≤ 2 ^ 31) :
    PagingRoom mem 0x1000 base n := by
  have hcount : newTables mem 0x1000 n ≤ n := Nat.count_le _
  have hfirst : ∀ i < n, entry mem 0x1000 (768 + i) ≠ 0#32 →
      i = 0 ∧ entry mem 0x1000 (768 + i) = 0x2007#32 := by
    intro i hi hne
    rw [hentries _ (by omega)] at hne ⊢
    by_cases hzero : i = 0
    · rw [if_pos (by omega)]
      exact ⟨hzero, rfl⟩
    · rw [if_neg (by omega)] at hne
      contradiction
  constructor
  · decide
  · omega
  · exact Or.inl (by omega)
  · intro i hi hne
    rw [(hfirst i hi hne).2]
    refine ⟨by decide, by decide, Or.inl ?_⟩
    rw [show frame 0x2007#32 = 0x2000 by decide]
    omega
  · intro i hi j hj hne hne' hij
    exact absurd ((hfirst i hi hne).1.trans (hfirst j hj hne').1.symm) hij

theorem toNat_pageAlign_le {x : Word} {n : Nat} (hn : 4096 ∣ n) (hx : x.toNat ≤ n)
    (hfit : n < 2 ^ 31) : (pageAlign x).toNat ≤ n ∧ x.toNat ≤ (pageAlign x).toNat := by
  have hround : (pageAlign x).toNat = Align.roundUp x.toNat 4096 := by
    have := Align.toNat_align x (a := pageSize) ⟨12, rfl⟩ (by rw [toNat_pageSize]; omega)
    rwa [toNat_pageSize] at this
  rw [hround]
  exact ⟨Align.roundUp_le (by decide) hn hx, Align.le_roundUp _ (by decide)⟩

/-- **From `setup_paging` to the pager.**  With at most 1 GB and a kernel that ends below 3 MB, the
constructor of `memory` maps all of memory twice, and all its tables are in the 4 MB that
`setup_paging` has mapped. -/
theorem construct_setupPaging {kernelEnd : Word} {mem : BitMemory}
    (hkernel : kernelEnd.toNat ≤ 3 * 2 ^ 20) (hmem : (totalMem mem &&& pageMask).toNat ≤ 2 ^ 30) :
    ∃ mem₁ m mem₂, HeadS.setupPaging mem = some mem₁ ∧
      Memory.construct kernelEnd HeadS.pde.toNat mem₁ = some (m, mem₂) ∧
      m.endMem = totalMem mem &&& pageMask ∧ m.startMem.toNat ≤ 2 ^ 22 ∧
      TwoWindows mem₂ HeadS.pde.toNat m.endMem := by
  obtain ⟨mem₁, hrun, hentries, -, hframe⟩ := setupPagingWith_entries
    (fun _ hk ↦ jge_eq hk) (show 4096 ∣ HeadS.pde.toNat by decide) (by decide) mem
  have htotal : totalMem mem₁ = totalMem mem := BitMemory.word32_congr fun j hj ↦
    hframe _ (Or.inr (by
      show 8 * (0x1000 + 8192) ≤ 8 * (0x5000 + 4) + j
      omega))
  obtain ⟨startMem, hstart⟩ : ∃ startMem, startMem =
    if 1024#32 * 1024#32 ≤ kernelEnd then kernelEnd else 1024#32 * 1024#32 := ⟨_, rfl⟩
  have hbounds : 2 ^ 20 ≤ startMem.toNat ∧ startMem.toNat ≤ 3 * 2 ^ 20 := by
    rw [hstart]
    split_ifs with hle
    · exact ⟨BitVec.le_def.mp hle, hkernel⟩
    · exact ⟨by decide, by decide⟩
  obtain ⟨hle, hge⟩ := toNat_pageAlign_le (n := 3 * 2 ^ 20) (by decide) hbounds.2 (by decide)
  have hcount := tableCount_le hmem
  have hroom : PagingRoom mem₁ 0x1000 (pageAlign startMem)
      (tableCount (totalMem mem &&& pageMask)) :=
    pagingRoom_of_entries hcount hentries (by omega) (by omega)
  obtain ⟨t, ht, hnew, hwindows⟩ := pagingRun_spec hmem hroom
  have hused : newTables mem₁ 0x1000 (tableCount (totalMem mem &&& pageMask)) ≤ 256 :=
    (Nat.count_le _).trans hcount
  refine ⟨mem₁, ⟨t.startMem, totalMem mem &&& pageMask⟩, t.mem, hrun, ?_, rfl, ?_, hwindows⟩
  · have hflags : MemoryCpp.pageTable = pageTable := by decide
    have hflags' : MemoryCpp.pageTable = pageShared := by decide
    have ht' : pagingRun MemoryCpp.pageTable MemoryCpp.pageTable startMem
        (totalMem mem &&& pageMask) 0x1000 mem₁ = some t := by
      rw [← ht]
      exact congrArg₂ (fun f g ↦ pagingRun f g startMem _ 0x1000 mem₁) hflags hflags'
    unfold Memory.construct Memory.pagingInit
    dsimp only
    rw [htotal, ← hstart]
    show (pagingRun _ _ startMem _ 0x1000 mem₁).map _ = _
    rw [ht']
    rfl
  · dsimp only
    omega

/-- 1 GB, and a kernel that ends at 2 MB. -/
theorem construct_setupPaging_gigabyte :
    ∃ mem₁ m mem₂, HeadS.setupPaging (copyBootParameters
        (storeTotalMem 0x40000000#32 fun _ ↦ false)) = some mem₁ ∧
      Memory.construct 0x200000#32 HeadS.pde.toNat mem₁ = some (m, mem₂) ∧
      m.endMem = 0x40000000#32 ∧ TwoWindows mem₂ HeadS.pde.toNat m.endMem := by
  have htotal := totalMem_copyBootParameters 0x40000000#32 fun _ ↦ false
  obtain ⟨mem₁, m, mem₂, hrun, hm, hend, -, hwindows⟩ := construct_setupPaging
    (show (0x200000#32).toNat ≤ 3 * 2 ^ 20 by decide) (by rw [htotal]; decide)
  rw [htotal] at hend
  exact ⟨mem₁, m, mem₂, hrun, hm, hend, hwindows⟩

end AphroditeOs
