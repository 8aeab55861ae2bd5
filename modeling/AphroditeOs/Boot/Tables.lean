import AphroditeOs.Boot.Head
import AphroditeOs.Lib.PageTables
import AphroditeOs.Setup.Arch

/-!
# What the boot page tables map

`head.S` builds two windows from `pg0` on, at address 0 and at 3 GB, and `init_bootmem` uses the
second one for the bitmap behind the tables.
-/

namespace AphroditeOs

open PageTables

/-- The link script puts `swapper_pg_dir` into `.bss.page_aligned`, and `pg0` on a page behind
`.bss`.  What counts is that the directory is apart from the tables that 1 GB takes. -/
structure TablesLinked (pg0 swapperPgDir : Word) : Prop where
  dirAligned : 4096 ∣ swapperPgDir.toNat
  pg0Aligned : 4096 ∣ pg0.toNat
  apart : swapperPgDir.toNat + 4096 ≤ pg0.toNat ∨ pg0.toNat + 4096 * 256 ≤ swapperPgDir.toNat

/-- `k` tables map what lies below their own end, and `INIT_MAP_BEYOND_END` bytes more. -/
def TablesReach (pg0 : Word) (k : Nat) : Prop :=
  pg0.toNat + 4096 * k + initMapBeyondEnd.toNat ≤ 2 ^ 22 * k

/-- The directory entry for table `i`. -/
def headTable (pg0 : Word) (i : Nat) : Word := pg0 + BitVec.ofNat 32 (4096 * i) + 0x007#32

/-- The table entry for page `p`. -/
def headPage (p : Nat) : Word := BitVec.ofNat 32 (4096 * p) + 0x007#32

/-- The state after `n` passes from memory `mem` on. -/
structure HeadAfter (pg0 swapperPgDir : Word) (mem : BitMemory) (n : Nat) (s : HeadState) : Prop where
  eax : s.eax = headPage (1024 * n)
  edi : s.edi = pg0 + BitVec.ofNat 32 (4096 * n)
  edx : s.edx = swapperPgDir + BitVec.ofNat 32 (4 * n)
  windows : Windows s.mem swapperPgDir.toNat 768 n (headTable pg0) headPage
  rest : ∀ i < 1024, n ≤ i → i < 768 ∨ 768 + n ≤ i →
    entry s.mem swapperPgDir.toNat i = entry mem swapperPgDir.toNat i

section

variable {pg0 swapperPgDir : Word} {mem : BitMemory} {k n : Nat} {s : HeadState}

/-! ## The entries -/

theorem toNat_tableAddr (hpg0 : pg0.toNat ≤ 2 ^ 30) {i : Nat} (hi : i ≤ 256) :
    (pg0 + BitVec.ofNat 32 (4096 * i)).toNat = pg0.toNat + 4096 * i :=
  toNat_add_ofNat (by omega)

theorem dvd_tableAddr (hlink : TablesLinked pg0 swapperPgDir) (hpg0 : pg0.toNat ≤ 2 ^ 30) {i : Nat}
    (hi : i ≤ 256) : 4096 ∣ (pg0 + BitVec.ofNat 32 (4096 * i)).toNat := by
  rw [toNat_tableAddr hpg0 hi]
  exact Nat.dvd_add hlink.pg0Aligned (Nat.dvd_mul_right _ _)

theorem frame_headTable (hlink : TablesLinked pg0 swapperPgDir) (hpg0 : pg0.toNat ≤ 2 ^ 30) {i : Nat}
    (hi : i ≤ 256) : frame (headTable pg0 i) = pg0.toNat + 4096 * i := by
  have haligned := dvd_tableAddr hlink hpg0 hi
  rw [headTable, add_flags haligned (by decide), frame_or_flags haligned (by decide),
    toNat_tableAddr hpg0 hi]

theorem present_headTable (hlink : TablesLinked pg0 swapperPgDir) (hpg0 : pg0.toNat ≤ 2 ^ 30) {i : Nat}
    (hi : i ≤ 256) : present (headTable pg0 i) = true := by
  rw [headTable, add_flags (dvd_tableAddr hlink hpg0 hi) (by decide)]
  exact present_or_flags (by decide)

theorem headPage_eq_or {p : Nat} (hp : p < 2 ^ 20) :
    headPage p = BitVec.ofNat 32 (4096 * p) ||| 0x007#32 := by
  apply add_flags
  · rw [toNat_ofNat_of_lt (by omega)]
    exact Nat.dvd_mul_right _ _
  · decide

theorem frame_headPage {p : Nat} (hp : p < 2 ^ 20) : frame (headPage p) = 4096 * p := by
  have haddr : (BitVec.ofNat 32 (4096 * p)).toNat = 4096 * p := toNat_ofNat_of_lt (by omega)
  rw [headPage_eq_or hp, frame_or_flags (by omega) (by decide), haddr]

theorem present_headPage {p : Nat} (hp : p < 2 ^ 20) : present (headPage p) = true := by
  rw [headPage_eq_or hp]
  exact present_or_flags (by decide)

theorem headPage_add (p c : Nat) : headPage (p + c) = headPage p + BitVec.ofNat 32 (4096 * c) := by
  rw [headPage, headPage, Nat.mul_add, BitVec.ofNat_add, BitVec.add_assoc, BitVec.add_assoc,
    BitVec.add_comm (0x007#32)]

/-! ## One table -/

-- `stosl` sets the entries one after the other.
theorem fillTable_mem {count page i p : Nat} (s : HeadState) (hroom : page + 4 * (i + count) ≤ 2 ^ 32)
    (heax : s.eax = headPage (p + i)) (hedi : s.edi = BitVec.ofNat 32 (page + 4 * i)) :
    (fillTable count s).mem = setEntries s.mem page (fun j ↦ headPage (p + j)) count i := by
  induction count generalizing i s with
  | zero => rfl
  | succ count ih =>
    have hslot : s.edi.toNat = page + 4 * i := by
      rw [hedi, toNat_ofNat_of_lt (by omega)]
    have hpage : s.eax + 0x1000#32 = headPage (p + (i + 1)) := by
      rw [heax, ← Nat.add_assoc, headPage_add (p + i) 1]
    have hnext : s.edi + 4#32 = BitVec.ofNat 32 (page + 4 * (i + 1)) := by
      rw [hedi, show page + 4 * (i + 1) = page + 4 * i + 4 by omega]
      exact (BitVec.ofNat_add _ _).symm
    have hrest := @ih (i + 1) { s with
      mem := s.mem.store32 s.edi.toNat s.eax
      eax := s.eax + 0x1000#32
      ecx := s.ecx - 1#32
      edi := s.edi + 4#32 } (by omega) hpage hnext
    rw [fillTable, setEntries, hrest, hslot, heax]
    rfl

/-! ## The passes -/

theorem headAfter_zero (pg0 swapperPgDir : Word) (mem : BitMemory) :
    HeadAfter pg0 swapperPgDir mem 0 (headStart pg0 swapperPgDir mem) := by
  constructor
  · rfl
  · exact (BitVec.add_zero pg0).symm
  · exact (BitVec.add_zero swapperPgDir).symm
  · exact ⟨fun i hi ↦ by omega, fun i hi ↦ by omega, fun i hi ↦ by omega⟩
  · exact fun i _ _ _ ↦ rfl

/-- The memory behind a pass: both windows get their entry for the table, and the table is filled. -/
theorem HeadAfter.mem_headPass (hlink : TablesLinked pg0 swapperPgDir) (hpg0 : pg0.toNat ≤ 2 ^ 30)
    (hn : n < 256) (h : HeadAfter pg0 swapperPgDir mem n s) :
    (headPass s).mem = setEntries
      (setEntry (setEntry s.mem swapperPgDir.toNat n (headTable pg0 n)) swapperPgDir.toNat (768 + n)
        (headTable pg0 n))
      (frame (headTable pg0 n)) (fun j ↦ headPage (1024 * n + j)) 1024 0 := by
  have hdir := hlink.dirAligned
  have hdirlt := swapperPgDir.isLt
  have haddr := @toNat_tableAddr pg0 hpg0 n hn.le
  have hvalue : s.edi + 0x007#32 = headTable pg0 n := by
    rw [h.edi, headTable]
  have hlow : s.edx.toNat = swapperPgDir.toNat + 4 * n := by
    rw [h.edx]
    exact toNat_add_ofNat (by omega)
  have hhigh : (s.edx + pagePdeOffset).toNat = swapperPgDir.toNat + 4 * (768 + n) := by
    rw [BitVec.toNat_add, hlow, show pagePdeOffset.toNat = 4 * 768 from rfl,
      Nat.mod_eq_of_lt (by omega)]
    omega
  have hedi : s.edi = BitVec.ofNat 32 (frame (headTable pg0 n) + 4 * 0) := by
    apply BitVec.eq_of_toNat_eq
    rw [frame_headTable hlink hpg0 hn.le, h.edi, haddr, toNat_ofNat_of_lt (by omega)]
    rfl
  have hroom : frame (headTable pg0 n) + 4 * (0 + 1024) ≤ 2 ^ 32 := by
    rw [frame_headTable hlink hpg0 hn.le]
    omega
  unfold headPass
  dsimp only
  rw [hvalue, hlow, hhigh]
  exact fillTable_mem _ hroom h.eax hedi

theorem HeadAfter.pass (hlink : TablesLinked pg0 swapperPgDir) (hpg0 : pg0.toNat ≤ 2 ^ 30)
    (hn : n < 256) (h : HeadAfter pg0 swapperPgDir mem n s) :
    HeadAfter pg0 swapperPgDir mem (n + 1) (headPass s) := by
  have ⟨heax, hedi, hedx, _⟩ := headPass_regs s
  have hmem := h.mem_headPass hlink hpg0 hn
  have hdir := hlink.dirAligned
  have hapart := hlink.apart
  have hframe : ∀ i ≤ n, frame (headTable pg0 i) ≠ swapperPgDir.toNat := by
    intro i hi
    rw [frame_headTable hlink hpg0 (by omega)]
    omega
  -- the directory behind the two stores
  have hentries : ∀ i < 1024, entry
      (setEntry (setEntry s.mem swapperPgDir.toNat n (headTable pg0 n)) swapperPgDir.toNat (768 + n)
        (headTable pg0 n)) swapperPgDir.toNat i =
      if i = n ∨ i = 768 + n then headTable pg0 n else entry s.mem swapperPgDir.toNat i := by
    intro i hi
    rw [entry_setEntry_setEntry _ _ hdir hdir (by omega) (by omega) hi]
    simp
  constructor
  · rw [heax, h.eax, Nat.mul_add, headPage_add]
  · rw [hedi, h.edi, Nat.mul_add, BitVec.ofNat_add, ← BitVec.add_assoc]
  · rw [hedx, h.edx, Nat.mul_add, BitVec.ofNat_add, ← BitVec.add_assoc]
  · rw [hmem]
    apply h.windows.pass hdir (by omega) (by omega) hentries
    · intro page hpage hne j hj
      rw [entry_setEntry_setEntry _ _ hdir hpage (by omega) (by omega) hj,
        if_neg (fun hsame ↦ hne hsame.1)]
    · exact hframe
    · intro i hi
      rw [frame_headTable hlink hpg0 (by omega), frame_headTable hlink hpg0 (by omega)]
      omega
  · intro i hi hlow hhigh
    rw [hmem, entry_setEntries _ _ (dvd_frame _) hdir (by omega) hi,
      if_neg (fun hsame ↦ hframe n le_rfl hsame.1.symm), hentries i hi, if_neg (by omega)]
    exact h.rest i hi (by omega) (by omega)

theorem headAfter_iterate (hlink : TablesLinked pg0 swapperPgDir) (hpg0 : pg0.toNat ≤ 2 ^ 30)
    (hn : n ≤ 256) :
    HeadAfter pg0 swapperPgDir mem n (headPass^[n] (headStart pg0 swapperPgDir mem)) := by
  induction n with
  | zero => exact headAfter_zero pg0 swapperPgDir mem
  | succ n ih =>
    rw [Function.iterate_succ_apply']
    exact (ih (by omega)).pass hlink hpg0 hn

/-! ## The number of tables -/

theorem tablesSuffice_iff (hpg0 : pg0.toNat ≤ 2 ^ 30) (hk : k ≤ 256) :
    TablesSuffice pg0 k ↔ TablesReach pg0 k := by
  have hreach : initMapBeyondEnd.toNat = 0xC0000 := by decide
  unfold TablesSuffice TablesReach
  rw [hreach, Nat.mod_eq_of_lt (by omega), Nat.mod_eq_of_lt (by omega)]
  omega

theorem one_le_of_tablesReach (h : TablesReach pg0 k) : 1 ≤ k := by
  have hreach : initMapBeyondEnd.toNat = 0xC0000 := by decide
  unfold TablesReach at h
  omega

theorem pg0_le_of_tablesReach (hk : k ≤ 256) (h : TablesReach pg0 k) : pg0.toNat ≤ 2 ^ 30 := by
  unfold TablesReach at h
  omega

-- With at most 256 tables the comparison does not wrap.
theorem isLeast_tablesReach {j : Nat} (hj : j ≤ 256) (hreach : TablesReach pg0 j)
    (h : IsLeast {k | 1 ≤ k ∧ TablesSuffice pg0 k} k) :
    k ≤ 256 ∧ IsLeast {k | TablesReach pg0 k} k := by
  have hpg0 := pg0_le_of_tablesReach hj hreach
  have hle : ∀ i ≤ 256, TablesReach pg0 i → k ≤ i := fun i hi hr ↦
    h.2 ⟨one_le_of_tablesReach hr, (tablesSuffice_iff hpg0 hi).mpr hr⟩
  have hk := (hle j hj hreach).trans hj
  refine ⟨hk, (tablesSuffice_iff hpg0 hk).mp h.1.2, fun i hi ↦ ?_⟩
  rcases Nat.lt_or_ge 256 i with hlt | hge
  · exact hk.trans hlt.le
  · exact hle i hge hi

/-! ## The windows -/

theorem toNat_va {a : Word} (ha : a.toNat < 2 ^ 30) : (va a).toNat = a.toNat + 4096 * (1024 * 768) := by
  rw [va, BitVec.toNat_add, show pageOffset.toNat = 4096 * (1024 * 768) from rfl,
    Nat.mod_eq_of_lt (by omega)]

theorem HeadAfter.translate_eq (hlink : TablesLinked pg0 swapperPgDir) (hpg0 : pg0.toNat ≤ 2 ^ 30)
    (hk : k ≤ 256) (h : HeadAfter pg0 swapperPgDir mem k s) {a v : Word} (ha : a.toNat < 2 ^ 22 * k)
    (hv : v.toNat = a.toNat ∨ v.toNat = a.toNat + 4096 * (1024 * 768)) :
    translate s.mem swapperPgDir.toNat v = some a.toNat := by
  have hp : a.toNat / 4096 < 1024 * k := by omega
  have hp' : a.toNat / 4096 < 2 ^ 20 := by omega
  have htables : ∀ i < k, present (headTable pg0 i) = true :=
    fun i hi ↦ present_headTable hlink hpg0 (by omega)
  have hmaps : MapsPage s.mem swapperPgDir.toNat v (4096 * (a.toNat / 4096))
      ((headPage (a.toNat / 4096)).toNat % 4096) :=
    ⟨_, h.windows.walk htables hp (present_headPage hp') (by omega), frame_headPage hp', rfl⟩
  rw [hmaps.translate]
  congr 1
  omega

/-- What the processor finds in the directory when paging is switched on. -/
structure BootWindows (pg0 swapperPgDir : Word) (mem : BitMemory) (k : Nat) (s : HeadState) : Prop where
  tablesEnd : s.edi.toNat = pg0.toNat + 4096 * k
  reach : s.edi.toNat + initMapBeyondEnd.toNat ≤ 2 ^ 22 * k
  low : ∀ i < k, entry s.mem swapperPgDir.toNat i = headTable pg0 i
  kernel : ∀ i < k, entry s.mem swapperPgDir.toNat (768 + i) = headTable pg0 i
  rest : ∀ i < 1024, k ≤ i → i < 768 ∨ 768 + k ≤ i →
    entry s.mem swapperPgDir.toNat i = entry mem swapperPgDir.toNat i
  mapped : ∀ a : Word, a.toNat < 2 ^ 22 * k →
    translate s.mem swapperPgDir.toNat a = some a.toNat ∧
      translate s.mem swapperPgDir.toNat (va a) = some a.toNat

/-- The bitmap that `init_bootmem_core` sets from `PFN_UP(init_pg_tables_end)` on is in the first `k`
times 4 MB, and the tables lead to it. -/
def BitmapMapped (swapperPgDir : Word) (k : Nat) (s : HeadState) : Prop :=
  ∀ (pgdat : PglistData) (maxLowPfn : Word) (t : BootState), maxLowPfn ≤ maxmemPfn →
    let r := initBootmemCore pgdat (pfnUp s.edi) 0#32 maxLowPfn t
    (∀ n, 8 * (2 ^ 22 * k) ≤ n → r.2.mem n = t.mem n) ∧
      ∀ j < r.1.toNat, r.2.bdata.map + j < 2 ^ 22 * k ∧
        translate s.mem swapperPgDir.toNat (r.2.bdata.nodeBootmemMap + BitVec.ofNat 32 j) =
          some (r.2.bdata.map + j)

theorem HeadAfter.bootWindows (hlink : TablesLinked pg0 swapperPgDir) (hk : k ≤ 256)
    (hreach : TablesReach pg0 k) (h : HeadAfter pg0 swapperPgDir mem k s) :
    BootWindows pg0 swapperPgDir mem k s := by
  have hpg0 := pg0_le_of_tablesReach hk hreach
  have hend : s.edi.toNat = pg0.toNat + 4096 * k := by
    rw [h.edi, toNat_tableAddr hpg0 hk]
  refine ⟨hend, ?_, h.windows.low, h.windows.high, h.rest, fun a ha ↦ ⟨?_, ?_⟩⟩
  · rw [hend]
    exact hreach
  · exact h.translate_eq hlink hpg0 hk ha (Or.inl rfl)
  · exact h.translate_eq hlink hpg0 hk ha (Or.inr (toNat_va (by omega)))

-- The bitmap takes 28 KB at most, less than `INIT_MAP_BEYOND_END`.
theorem BootWindows.bitmapMapped (hlink : TablesLinked pg0 swapperPgDir) (hk : k ≤ 256)
    (h : BootWindows pg0 swapperPgDir mem k s) : BitmapMapped swapperPgDir k s := by
  intro pgdat maxLowPfn t hmax
  have hbeyond : initMapBeyondEnd.toNat = 0xC0000 := by decide
  have hreach := h.reach
  have hsize : (bootmemMapsize 0#32 maxLowPfn).toNat ≤ 28672 := by
    rw [BitVec.le_def, toNat_maxmemPfn] at hmax
    rw [toNat_bootmemMapsize (by omega)]
    omega
  have hfits : s.edi.toNat + (bootmemMapsize 0#32 maxLowPfn).toNat ≤ 2 ^ 22 * k := by omega
  -- the first page behind the tables is where they end
  have hstart : (pfnUp s.edi <<< pageShift).toNat = s.edi.toNat := by
    apply toNat_pfnUp_shiftLeft_of_dvd
    rw [h.tablesEnd]
    exact Nat.dvd_add hlink.pg0Aligned (Nat.dvd_mul_right _ _)
  have hmapped : ∀ j < (bootmemMapsize 0#32 maxLowPfn).toNat,
      translate s.mem swapperPgDir.toNat (va (pfnUp s.edi <<< pageShift) + BitVec.ofNat 32 j) =
        some (s.edi.toNat + j) := by
    intro j hj
    have haddr : (pfnUp s.edi <<< pageShift + BitVec.ofNat 32 j).toNat = s.edi.toNat + j := by
      rw [toNat_add_ofNat (by rw [hstart]; omega), hstart]
    rw [va_add, (h.mapped _ (by omega)).2, haddr]
  intro r
  have hbdata : r.2.bdata.map = s.edi.toNat := by
    rw [map_initBootmemCore, hstart]
  constructor
  · intro n hn
    rw [mem_initBootmemCore, hbdata]
    exact BitMemory.fill_outside (Or.inr ((Nat.mul_le_mul_left 8 hfits).trans hn))
  · intro j hj
    rw [hbdata]
    exact ⟨(Nat.add_lt_add_left hj _).trans_le hfits, hmapped j hj⟩

end

/-- **The boot page tables.**  When 256 tables can reach their own end, the loop ends with the least
number `k` of tables that does, the first `k` times 4 MB are mapped at their own addresses and at
3 GB, and the bitmap of the boot allocator lies in them. -/
theorem initPageTables_windows {pg0 swapperPgDir : Word} (hlink : TablesLinked pg0 swapperPgDir)
    (hneed : ∃ k ≤ 256, TablesReach pg0 k) (mem : BitMemory) :
    ∃ k s, initPageTables pg0 swapperPgDir mem = some (k, s) ∧ 1 ≤ k ∧
      IsLeast {k | TablesReach pg0 k} k ∧ BootWindows pg0 swapperPgDir mem k s ∧
      BitmapMapped swapperPgDir k s := by
  have ⟨j, hj, hreach⟩ := hneed
  have ⟨k, hleast, hloop⟩ := initPageTables_eq pg0 swapperPgDir mem
  have ⟨hk, hleast'⟩ := isLeast_tablesReach hj hreach hleast
  have hafter := @headAfter_iterate pg0 swapperPgDir mem k hlink (pg0_le_of_tablesReach hj hreach) hk
  have hwindows := hafter.bootWindows hlink hk hleast'.1
  exact ⟨k, _, hloop, hleast.1.1, hleast', hwindows, hwindows.bitmapMapped hlink hk⟩

/-- Tables at 3.5 MB, where one cannot reach the end of itself and of the bitmap. -/
theorem initPageTables_windows_twoTables :
    ∃ s, initPageTables 0x380000#32 0x101000#32 (fun _ ↦ false) = some (2, s) ∧
      BootWindows 0x380000#32 0x101000#32 (fun _ ↦ false) 2 s ∧ BitmapMapped 0x101000#32 2 s := by
  have htwo : TablesReach 0x380000#32 2 := by
    unfold TablesReach
    decide
  have hone : ¬ TablesReach 0x380000#32 1 := by
    unfold TablesReach
    decide
  have hlink : TablesLinked 0x380000#32 0x101000#32 := ⟨by decide, by decide, by decide⟩
  obtain ⟨k, s, hrun, hpos, hleast, hwindows, hbitmap⟩ :=
    initPageTables_windows hlink ⟨2, by decide, htwo⟩ fun _ ↦ false
  have hle : k ≤ 2 := hleast.2 htwo
  have hne : k ≠ 1 := fun heq ↦ hone (heq ▸ hleast.1)
  obtain rfl : k = 2 := by omega
  exact ⟨s, hrun, hwindows, hbitmap⟩

end AphroditeOs
