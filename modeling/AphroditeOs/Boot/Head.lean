import AphroditeOs.Page

/-!
# The first page tables (`boot/head.S`)

`startup_32` fills page tables from `pg0` on until they map the kernel, themselves, and
`INIT_MAP_BEYOND_END` bytes behind them.  Every table is entered into the page directory twice, for
the identity map and for the kernel's own addresses.  Addresses are physical.
-/

namespace AphroditeOs

def initMapBeyondEnd : Word := 1024#32 * 768#32

def pagePdeOffset : Word := pageOffset >>> 20

/-- Memory and the registers of the loop. -/
structure HeadState where
  mem : BitMemory
  eax : Word
  ecx : Word
  edx : Word
  edi : Word

/-- Label 11, for a count of `n` in `ecx`: `stosl`, the next page, and `loop`. -/
def fillTable : Nat → HeadState → HeadState
  | 0, s => s
  | n + 1, s => fillTable n { s with
      mem := s.mem.store32 s.edi.toNat s.eax
      eax := s.eax + 0x1000#32
      ecx := s.ecx - 1#32
      edi := s.edi + 4#32 }

/-- Label 10, up to the comparison. -/
def headPass (s : HeadState) : HeadState :=
  let ecx := s.edi + 0x007#32
  let mem := s.mem.store32 s.edx.toNat ecx
  let mem := mem.store32 (s.edx + pagePdeOffset).toNat ecx
  let s := fillTable 1024 { s with mem := mem, ecx := 1024#32, edx := s.edx + 4#32 }
  { s with ecx := s.edi + (initMapBeyondEnd + 0x007#32) }

/-- `jb 10b`, with the number of passes. -/
def headLoop : Nat → HeadState → Option (Nat × HeadState)
  | 0, _ => none
  | fuel + 1, s =>
    let s := headPass s
    if s.eax < s.ecx then (headLoop fuel s).map fun (k, s) ↦ (k + 1, s) else some (1, s)

/-- The state at label 10, with `pg0` and `swapper_pg_dir`. -/
def headStart (pg0 swapperPgDir : Word) (mem : BitMemory) : HeadState :=
  ⟨mem, 0x007#32, 0#32, swapperPgDir, pg0⟩

/-- The number of tables filled, and the state behind the loop: `edi` is what becomes
`init_pg_tables_end`. -/
def initPageTables (pg0 swapperPgDir : Word) (mem : BitMemory) : Option (Nat × HeadState) :=
  headLoop (2 ^ 20 + 2) (headStart pg0 swapperPgDir mem)

/-! ## One table -/

theorem fillTable_regs (n : Nat) (s : HeadState) :
    (fillTable n s).eax = s.eax + BitVec.ofNat 32 (4096 * n) ∧
      (fillTable n s).edi = s.edi + BitVec.ofNat 32 (4 * n) ∧ (fillTable n s).edx = s.edx := by
  induction n generalizing s with
  | zero => exact ⟨(BitVec.add_zero _).symm, (BitVec.add_zero _).symm, rfl⟩
  | succ n ih =>
    obtain ⟨heax, hedi, hedx⟩ := ih _
    rw [fillTable, heax, hedi, hedx, Nat.mul_add, Nat.mul_add, BitVec.ofNat_add, BitVec.ofNat_add]
    refine ⟨?_, ?_, rfl⟩
    · bv_omega
    · bv_omega

-- A pass moves on by one table, 4 MB further in memory.
theorem headPass_regs (s : HeadState) :
    (headPass s).eax = s.eax + 0x400000#32 ∧ (headPass s).edi = s.edi + 0x1000#32 ∧
      (headPass s).edx = s.edx + 4#32 ∧ (headPass s).ecx = (headPass s).edi + 0xC0007#32 := by
  unfold headPass
  dsimp only
  obtain ⟨heax, hedi, hedx⟩ := fillTable_regs 1024 { s with
    mem := (s.mem.store32 s.edx.toNat (s.edi + 0x007#32)).store32 (s.edx + pagePdeOffset).toNat
      (s.edi + 0x007#32)
    ecx := 1024#32
    edx := s.edx + 4#32 }
  exact ⟨heax, hedi, hedx, rfl⟩

theorem iterate_headPass_regs (k : Nat) (s : HeadState) :
    (headPass^[k] s).eax = s.eax + BitVec.ofNat 32 (2 ^ 22 * k) ∧
      (headPass^[k] s).edi = s.edi + BitVec.ofNat 32 (4096 * k) := by
  induction k generalizing s with
  | zero => exact ⟨(BitVec.add_zero _).symm, (BitVec.add_zero _).symm⟩
  | succ k ih =>
    obtain ⟨heax, hedi, -, -⟩ := headPass_regs s
    rw [Function.iterate_succ_apply, (ih _).1, (ih _).2, heax, hedi, Nat.mul_add, Nat.mul_add,
      BitVec.ofNat_add, BitVec.ofNat_add]
    constructor
    · bv_omega
    · bv_omega

/-! ## The loop -/

theorem headLoop_eq {fuel k : Nat} {s : HeadState} (hk : 1 ≤ k) (hfuel : k ≤ fuel)
    (hstop : ¬ (headPass^[k] s).eax < (headPass^[k] s).ecx)
    (hgo : ∀ j, 1 ≤ j → j < k → (headPass^[j] s).eax < (headPass^[j] s).ecx) :
    headLoop fuel s = some (k, headPass^[k] s) := by
  -- the first pass is made in any case; the rest is the loop from the state behind it
  induction fuel generalizing k s with
  | zero => omega
  | succ fuel ih =>
    rw [headLoop]
    dsimp only
    rcases Nat.eq_or_lt_of_le hk with rfl | hlt
    · exact if_neg hstop
    obtain ⟨k, rfl⟩ := Nat.exists_eq_add_of_le' hk
    have hnext := ih (k := k) (s := headPass s) (by omega) (by omega) hstop
      fun j hj hjk ↦ hgo (j + 1) (by omega) (by omega)
    have hfirst : (headPass s).eax < (headPass s).ecx := hgo 1 le_rfl hlt
    rw [if_pos hfirst, hnext]
    rfl

/-- What the comparison asks of `k` tables: `k` times 4 MB reach as far as the tables and
`INIT_MAP_BEYOND_END` do. -/
def TablesSuffice (pg0 : Word) (k : Nat) : Prop :=
  (pg0.toNat + 4096 * k + 0xC0007) % 2 ^ 32 ≤ (2 ^ 22 * k + 7) % 2 ^ 32

theorem ecx_iterate_headPass {k : Nat} (hk : 1 ≤ k) (s : HeadState) :
    (headPass^[k] s).ecx = (headPass^[k] s).edi + 0xC0007#32 := by
  obtain ⟨k, rfl⟩ := Nat.exists_eq_add_of_le' hk
  rw [Function.iterate_succ_apply']
  exact (headPass_regs _).2.2.2

theorem stop_iff (pg0 swapperPgDir : Word) (mem : BitMemory) {k : Nat} (hk : 1 ≤ k) :
    ¬ (headPass^[k] (headStart pg0 swapperPgDir mem)).eax <
        (headPass^[k] (headStart pg0 swapperPgDir mem)).ecx ↔ TablesSuffice pg0 k := by
  have heax : (headPass^[k] (headStart pg0 swapperPgDir mem)).eax =
      7#32 + BitVec.ofNat 32 (2 ^ 22 * k) := (iterate_headPass_regs k _).1
  have hedi : (headPass^[k] (headStart pg0 swapperPgDir mem)).edi =
      pg0 + BitVec.ofNat 32 (4096 * k) := (iterate_headPass_regs k _).2
  have hreach : (7#32 + BitVec.ofNat 32 (2 ^ 22 * k)).toNat = (2 ^ 22 * k + 7) % 2 ^ 32 := by
    rw [BitVec.toNat_add, BitVec.toNat_ofNat, BitVec.toNat_ofNat, Nat.add_comm, ← Nat.add_mod]
  have hneed : (pg0 + BitVec.ofNat 32 (4096 * k) + 0xC0007#32).toNat =
      (pg0.toNat + 4096 * k + 0xC0007) % 2 ^ 32 := by
    rw [BitVec.toNat_add, BitVec.toNat_add, BitVec.toNat_ofNat, BitVec.toNat_ofNat, ← Nat.add_mod]
    omega
  rw [ecx_iterate_headPass hk, heax, hedi, BitVec.not_lt, BitVec.le_def, TablesSuffice, hreach,
    hneed]

-- Sooner or later `ecx` wraps, so that every run of the loop ends.
theorem exists_tablesSuffice (pg0 : Word) : ∃ k, 1 ≤ k ∧ k ≤ 2 ^ 20 + 2 ∧ TablesSuffice pg0 k := by
  -- `j` is the first count at which the sum wraps
  have hpg0 := pg0.isLt
  obtain ⟨j, hj⟩ : ∃ j, j = (2 ^ 32 - 1 - (pg0.toNat + 0xC0007) % 2 ^ 32) / 4096 + 1 := ⟨_, rfl⟩
  -- `eax` may have wrapped to 7 at the same count, but not at the next one as well
  by_cases hmod : j % 1024 = 0
  · refine ⟨j + 1, by omega, by omega, ?_⟩
    unfold TablesSuffice
    omega
  · refine ⟨j, by omega, by omega, ?_⟩
    unfold TablesSuffice
    omega

/-- The loop ends for every `pg0`, with the least number of tables that suffices. -/
theorem initPageTables_eq (pg0 swapperPgDir : Word) (mem : BitMemory) :
    ∃ k, IsLeast {k | 1 ≤ k ∧ TablesSuffice pg0 k} k ∧
      initPageTables pg0 swapperPgDir mem =
        some (k, headPass^[k] (headStart pg0 swapperPgDir mem)) := by
  classical
  obtain ⟨j, hj, hjle, hstop⟩ := exists_tablesSuffice pg0
  have hex : ∃ k, 1 ≤ k ∧ TablesSuffice pg0 k := ⟨j, hj, hstop⟩
  have hspec := Nat.find_spec hex
  refine ⟨Nat.find hex, ⟨hspec, fun i hi ↦ Nat.find_min' hex hi⟩, ?_⟩
  rw [initPageTables]
  refine headLoop_eq hspec.1 ((Nat.find_min' hex ⟨hj, hstop⟩).trans hjle) ?_ fun i hi hlt ↦ ?_
  · exact (stop_iff pg0 swapperPgDir mem hspec.1).mpr hspec.2
  · exact not_not.mp fun hi' ↦ Nat.find_min hex hlt ⟨hi, (stop_iff pg0 swapperPgDir mem hi).mp hi'⟩

theorem edi_iterate_headPass (k : Nat) (pg0 swapperPgDir : Word) (mem : BitMemory) :
    (headPass^[k] (headStart pg0 swapperPgDir mem)).edi = pg0 + BitVec.ofNat 32 (4096 * k) :=
  (iterate_headPass_regs k _).2

end AphroditeOs
