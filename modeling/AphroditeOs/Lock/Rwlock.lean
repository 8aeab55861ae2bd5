import AphroditeOs.Lib.Transition

/-!
# Reader/writer locks (`include/asm/rwlock.h`, `include/asm/spinlock.h`, `kernel/semaphore.c`)

A step of a CPU is one instruction on the lock word together with the jump on its flags.  A failed
attempt leaves its share in the word until the helper takes it back.
-/

namespace AphroditeOs

def rwLockBias : BitVec 32 := 0x01000000#32

/-- Where a CPU is, named after the instruction it executes next. -/
inductive Pc where
  | idle
  -- `__read_lock_failed`
  | readIncl
  | readCmpl
  | readDecl
  -- `__write_lock_failed`
  | writeAddl
  | writeCmpl
  | writeSubl
  -- `_raw_read_trylock` after its `atomic_dec`
  | tryRead
  | tryInc
  deriving DecidableEq, Repr

/-- A CPU, and how many times it holds the lock for reading and for writing. -/
structure Cpu where
  pc : Pc
  reads : Nat
  writes : Nat
  deriving DecidableEq, Repr

inductive LockOp where
  | readLock
  | writeLock
  | readTrylock
  | readUnlock
  | writeUnlock
  deriving DecidableEq, Repr

/-- The first instruction of an operation, by a CPU that is in none. -/
def startOp (op : LockOp) (lock : BitVec 32) (c : Cpu) : Option (BitVec 32 × Cpu) :=
  match op with
  | .readLock =>
    let lock := lock - 1#32
    -- `jns`
    some (lock, if lock.msb then { c with pc := .readIncl } else { c with reads := c.reads + 1 })
  | .writeLock =>
    let lock := lock - rwLockBias
    -- `jz`
    some (lock, if lock = 0#32 then { c with writes := c.writes + 1 } else { c with pc := .writeAddl })
  | .readTrylock => some (lock - 1#32, { c with pc := .tryRead })
  | .readUnlock =>
    if 0 < c.reads then some (lock + 1#32, { c with reads := c.reads - 1 }) else none
  | .writeUnlock =>
    if 0 < c.writes then some (lock + rwLockBias, { c with writes := c.writes - 1 }) else none

/-- One instruction; `op` is what an idle CPU begins. -/
def cpuStep (op : LockOp) (lock : BitVec 32) (c : Cpu) : Option (BitVec 32 × Cpu) :=
  match c.pc with
  | .idle => startOp op lock c
  | .readIncl => some (lock + 1#32, { c with pc := .readCmpl })
  | .readCmpl => some (lock, if (lock - 1#32).msb then c else { c with pc := .readDecl })
  | .readDecl =>
    let lock := lock - 1#32
    -- `js __read_lock_failed`
    some (lock, if lock.msb then { c with pc := .readIncl }
      else { c with pc := .idle, reads := c.reads + 1 })
  | .writeAddl => some (lock + rwLockBias, { c with pc := .writeCmpl })
  | .writeCmpl => some (lock, if lock = rwLockBias then { c with pc := .writeSubl } else c)
  | .writeSubl =>
    let lock := lock - rwLockBias
    -- `jnz __write_lock_failed`
    some (lock, if lock = 0#32 then { c with pc := .idle, writes := c.writes + 1 }
      else { c with pc := .writeAddl })
  | .tryRead =>
    -- `atomic_read(count) >= 0`, as an `int`
    some (lock, if lock.msb then { c with pc := .tryInc } else { c with pc := .idle, reads := c.reads + 1 })
  | .tryInc => some (lock + 1#32, { c with pc := .idle })

abbrev LockState (n : Nat) := Transition.Shared (Fin n) (BitVec 32) Cpu

/-- `n` CPUs on one lock, from `RW_LOCK_UNLOCKED` on. -/
def rwlock (n : Nat) : Transition.System (LockState n) :=
  Transition.interleave rwLockBias ⟨.idle, 0, 0⟩
    fun lock c lock' c' ↦ ∃ op, cpuStep op lock c = some (lock', c')

structure LockSafe {n : Nat} (s : LockState n) : Prop where
  one_writer : ∀ i j, 0 < (s.proc i).writes → 0 < (s.proc j).writes → i = j
  no_reader : ∀ i j, 0 < (s.proc i).writes → (s.proc j).reads = 0
  quiet : (∀ i, s.proc i = ⟨.idle, 0, 0⟩) → s.value = rwLockBias

/-! ## Shares in the lock word -/

/-- What a failed attempt to read still has in the word. -/
def Pc.readShare : Pc → Nat
  | .readIncl | .tryRead | .tryInc => 1
  | _ => 0

def Pc.writeShare : Pc → Nat
  | .writeAddl => 1
  | _ => 0

def Cpu.share (c : Cpu) : Nat := 2 ^ 24 * (c.writes + c.pc.writeShare) + (c.reads + c.pc.readShare)

/-- What one instruction can do to the holds of its CPU. -/
inductive Holds (lock' : BitVec 32) (c c' : Cpu) : Prop where
  | keep : c'.reads ≤ c.reads → c'.writes ≤ c.writes → Holds lock' c c'
  | read : lock'.msb = false → c'.pc = .idle → c'.reads = c.reads + 1 → c'.writes = c.writes →
      Holds lock' c c'
  | write : lock' = 0#32 → c'.pc = .idle → c'.writes = c.writes + 1 → c'.reads = c.reads →
      Holds lock' c c'

theorem toNat_rwLockBias : rwLockBias.toNat = 2 ^ 24 := rfl

def Pc.idleShare : Pc → Nat
  | .idle => 1
  | _ => 0

theorem Pc.shares_le_one (pc : Pc) : pc.readShare + pc.writeShare + pc.idleShare ≤ 1 := by
  cases pc <;> decide

theorem toNat_sub_add (lock d : BitVec 32) :
    ((lock - d).toNat + d.toNat) % 2 ^ 32 = lock.toNat % 2 ^ 32 := by
  rw [← BitVec.toNat_add, BitVec.sub_add_cancel, Nat.mod_eq_of_lt lock.isLt]

theorem toNat_add_mod (lock d : BitVec 32) :
    (lock + d).toNat % 2 ^ 32 = (lock.toNat + d.toNat) % 2 ^ 32 := by
  rw [BitVec.toNat_add, Nat.mod_mod]

/-- The shares in the word and those of the CPU add up to the same as before. -/
def Conserved (lock : BitVec 32) (c : Cpu) (lock' : BitVec 32) (c' : Cpu) : Prop :=
  (lock'.toNat + c'.share) % 2 ^ 32 = (lock.toNat + c.share) % 2 ^ 32

section

variable {lock lock' : BitVec 32} {c c' : Cpu}

theorem conserved_sub_one (h : c'.share = c.share + 1) : Conserved lock c (lock - 1#32) c' := by
  have hword := toNat_sub_add lock 1#32
  rw [show (1#32).toNat = 1 from rfl] at hword
  unfold Conserved
  omega

theorem conserved_sub_bias (h : c'.share = c.share + 2 ^ 24) :
    Conserved lock c (lock - rwLockBias) c' := by
  have hword := toNat_sub_add lock rwLockBias
  rw [toNat_rwLockBias] at hword
  unfold Conserved
  omega

theorem conserved_add_one (h : c.share = c'.share + 1) : Conserved lock c (lock + 1#32) c' := by
  have hword := toNat_add_mod lock 1#32
  rw [show (1#32).toNat = 1 from rfl] at hword
  unfold Conserved
  omega

theorem conserved_add_bias (h : c.share = c'.share + 2 ^ 24) :
    Conserved lock c (lock + rwLockBias) c' := by
  have hword := toNat_add_mod lock rwLockBias
  rw [toNat_rwLockBias] at hword
  unfold Conserved
  omega

/-- An attempt to read, the first one or the helper's, by a CPU that has no share for it. -/
theorem readAttempt_spec (hread : c.pc.readShare = 0) (hwrite : c.pc.writeShare = 0) :
    Conserved lock c (lock - 1#32) (if (lock - 1#32).msb then { c with pc := .readIncl }
        else { c with pc := .idle, reads := c.reads + 1 }) ∧
      Holds (lock - 1#32) c (if (lock - 1#32).msb then { c with pc := .readIncl }
        else { c with pc := .idle, reads := c.reads + 1 }) := by
  have hshare : c.share = 2 ^ 24 * c.writes + c.reads := by
    rw [Cpu.share, hread, hwrite, Nat.add_zero, Nat.add_zero]
  by_cases hsign : (lock - 1#32).msb = true
  · rw [if_pos hsign]
    exact ⟨conserved_sub_one (by rw [hshare]; simp [Cpu.share, Pc.readShare, Pc.writeShare]; omega),
      .keep le_rfl le_rfl⟩
  · rw [if_neg hsign]
    exact ⟨conserved_sub_one (by rw [hshare]; simp [Cpu.share, Pc.readShare, Pc.writeShare]; omega),
      .read (Bool.eq_false_iff.mpr hsign) rfl rfl rfl⟩

theorem writeAttempt_spec (hread : c.pc.readShare = 0) (hwrite : c.pc.writeShare = 0) :
    Conserved lock c (lock - rwLockBias) (if lock - rwLockBias = 0#32 then
          { c with pc := .idle, writes := c.writes + 1 } else { c with pc := .writeAddl }) ∧
      Holds (lock - rwLockBias) c (if lock - rwLockBias = 0#32 then
          { c with pc := .idle, writes := c.writes + 1 } else { c with pc := .writeAddl }) := by
  have hshare : c.share = 2 ^ 24 * c.writes + c.reads := by
    rw [Cpu.share, hread, hwrite, Nat.add_zero, Nat.add_zero]
  by_cases hzero : lock - rwLockBias = 0#32
  · rw [if_pos hzero]
    exact ⟨conserved_sub_bias (by rw [hshare]; simp [Cpu.share, Pc.readShare, Pc.writeShare]; omega),
      .write hzero rfl rfl rfl⟩
  · rw [if_neg hzero]
    exact ⟨conserved_sub_bias (by rw [hshare]; simp [Cpu.share, Pc.readShare, Pc.writeShare]; omega),
      .keep le_rfl le_rfl⟩

theorem startOp_spec {op : LockOp} (hidle : c.pc = .idle)
    (h : startOp op lock c = some (lock', c')) : Conserved lock c lock' c' ∧ Holds lock' c c' := by
  obtain ⟨pc, reads, writes⟩ := c
  subst hidle
  cases op with
  | readLock =>
    obtain ⟨rfl, rfl⟩ := Prod.mk.inj (Option.some.inj h)
    exact readAttempt_spec rfl rfl
  | writeLock =>
    obtain ⟨rfl, rfl⟩ := Prod.mk.inj (Option.some.inj h)
    exact writeAttempt_spec rfl rfl
  | readTrylock =>
    obtain ⟨rfl, rfl⟩ := Prod.mk.inj (Option.some.inj h)
    exact ⟨conserved_sub_one rfl, .keep le_rfl le_rfl⟩
  | readUnlock =>
    by_cases hheld : 0 < reads
    · rw [startOp, if_pos hheld] at h
      obtain ⟨rfl, rfl⟩ := Prod.mk.inj (Option.some.inj h)
      exact ⟨conserved_add_one (by simp [Cpu.share, Pc.readShare]; omega),
        .keep (Nat.sub_le _ _) le_rfl⟩
    · rw [startOp, if_neg hheld] at h
      contradiction
  | writeUnlock =>
    by_cases hheld : 0 < writes
    · rw [startOp, if_pos hheld] at h
      obtain ⟨rfl, rfl⟩ := Prod.mk.inj (Option.some.inj h)
      exact ⟨conserved_add_bias (by simp [Cpu.share, Pc.writeShare]; omega),
        .keep le_rfl (Nat.sub_le _ _)⟩
    · rw [startOp, if_neg hheld] at h
      contradiction

/-- One instruction keeps the shares, and takes a hold only on its flags. -/
theorem cpuStep_spec {op : LockOp} (h : cpuStep op lock c = some (lock', c')) :
    Conserved lock c lock' c' ∧ Holds lock' c c' := by
  obtain ⟨pc, reads, writes⟩ := c
  cases pc with
  | idle => exact startOp_spec rfl h
  | readIncl =>
    obtain ⟨rfl, rfl⟩ := Prod.mk.inj (Option.some.inj h)
    exact ⟨conserved_add_one (by simp [Cpu.share, Pc.readShare, Pc.writeShare]; omega),
      .keep le_rfl le_rfl⟩
  | readCmpl =>
    obtain ⟨rfl, rfl⟩ := Prod.mk.inj (Option.some.inj h)
    -- a comparison moves only the program counter
    split
    · exact ⟨rfl, .keep le_rfl le_rfl⟩
    · exact ⟨rfl, .keep le_rfl le_rfl⟩
  | readDecl =>
    obtain ⟨rfl, rfl⟩ := Prod.mk.inj (Option.some.inj h)
    exact readAttempt_spec rfl rfl
  | writeAddl =>
    obtain ⟨rfl, rfl⟩ := Prod.mk.inj (Option.some.inj h)
    exact ⟨conserved_add_bias (by simp [Cpu.share, Pc.readShare, Pc.writeShare]; omega),
      .keep le_rfl le_rfl⟩
  | writeCmpl =>
    obtain ⟨rfl, rfl⟩ := Prod.mk.inj (Option.some.inj h)
    split
    · exact ⟨rfl, .keep le_rfl le_rfl⟩
    · exact ⟨rfl, .keep le_rfl le_rfl⟩
  | writeSubl =>
    obtain ⟨rfl, rfl⟩ := Prod.mk.inj (Option.some.inj h)
    exact writeAttempt_spec rfl rfl
  | tryRead =>
    obtain ⟨rfl, rfl⟩ := Prod.mk.inj (Option.some.inj h)
    by_cases hsign : lock.msb = true
    · rw [if_pos hsign]
      exact ⟨rfl, .keep le_rfl le_rfl⟩
    · -- the share of the attempt becomes a hold
      rw [if_neg hsign]
      refine ⟨?_, .read (Bool.eq_false_iff.mpr hsign) rfl rfl rfl⟩
      unfold Conserved
      simp [Cpu.share, Pc.readShare, Pc.writeShare]
  | tryInc =>
    obtain ⟨rfl, rfl⟩ := Prod.mk.inj (Option.some.inj h)
    exact ⟨conserved_add_one (by simp [Cpu.share, Pc.readShare, Pc.writeShare]; omega),
      .keep le_rfl le_rfl⟩

end

/-! ## All CPUs -/

/-- The word is what the holds and the failed attempts leave of the bias, and the lock is held by
one writer or by at most `RW_LOCK_BIAS` readers. -/
structure LockInv {n : Nat} (s : LockState n) : Prop where
  word : (s.value.toNat + Transition.total Cpu.share s.proc) % 2 ^ 32 = 2 ^ 24
  reads_le : Transition.total Cpu.reads s.proc ≤ 2 ^ 24
  exclusive : Transition.total Cpu.writes s.proc = 0 ∨
    Transition.total Cpu.writes s.proc = 1 ∧ Transition.total Cpu.reads s.proc = 0

section

variable {n : Nat}

theorem total_share (proc : Fin n → Cpu) :
    Transition.total Cpu.share proc =
      2 ^ 24 * (Transition.total Cpu.writes proc +
        Transition.total (fun c ↦ c.pc.writeShare) proc) +
        (Transition.total Cpu.reads proc + Transition.total (fun c ↦ c.pc.readShare) proc) := by
  unfold Transition.total Cpu.share
  rw [Finset.sum_add_distrib, ← Finset.mul_sum, Finset.sum_add_distrib, Finset.sum_add_distrib]

-- While one CPU is idle the others have at most one failed attempt each.
theorem total_attempts_le (proc : Fin n → Cpu) {i : Fin n} (hi : (proc i).pc = .idle) :
    Transition.total (fun c ↦ c.pc.readShare) proc +
      Transition.total (fun c ↦ c.pc.writeShare) proc + 1 ≤ n := by
  have hcard : Transition.total
      (fun c : Cpu ↦ c.pc.readShare + c.pc.writeShare + c.pc.idleShare) proc ≤ _ :=
    Transition.total_le_card fun j ↦ (proc j).pc.shares_le_one
  have hidle := Transition.le_total (fun c : Cpu ↦ c.pc.idleShare) proc i
  rw [hi] at hidle
  unfold Transition.total at hcard hidle ⊢
  rw [Finset.sum_add_distrib, Finset.sum_add_distrib, Fintype.card_fin] at hcard
  exact (Nat.add_le_add_left hidle _).trans hcard

theorem lockInv_init : LockInv (⟨rwLockBias, fun _ ↦ ⟨.idle, 0, 0⟩⟩ : LockState n) := by
  have hzero : ∀ f : Cpu → Nat, f ⟨.idle, 0, 0⟩ = 0 →
      Transition.total f (fun _ : Fin n ↦ (⟨.idle, 0, 0⟩ : Cpu)) = 0 :=
    fun f hf ↦ Transition.total_eq_zero fun _ ↦ hf
  constructor
  · dsimp only
    rw [hzero Cpu.share rfl]
    rfl
  · dsimp only
    rw [hzero Cpu.reads rfl]
    exact Nat.zero_le _
  · exact Or.inl (hzero Cpu.writes rfl)

/-- A hold is taken only when the flags say that nothing stands against it. -/
theorem LockInv.step (hn : n ≤ 128) {s : LockState n} (hs : LockInv s) (i : Fin n)
    {lock : BitVec 32} {c : Cpu} (hconserved : Conserved s.value (s.proc i) lock c)
    (hholds : Holds lock (s.proc i) c) :
    LockInv (⟨lock, Function.update s.proc i c⟩ : LockState n) := by
  have hshare := Transition.total_update Cpu.share s.proc i c
  have hreads := Transition.total_update Cpu.reads s.proc i c
  have hwrites := Transition.total_update Cpu.writes s.proc i c
  have hsplit := total_share (Function.update s.proc i c)
  have hword : (lock.toNat + Transition.total Cpu.share (Function.update s.proc i c)) % 2 ^ 32 =
      2 ^ 24 := by
    have := hs.word
    unfold Conserved at hconserved
    omega
  have hattempts : c.pc = .idle → _ := fun hidle ↦
    total_attempts_le (Function.update s.proc i c) (i := i) (by rwa [Function.update_self])
  have hmax := hs.reads_le
  have hlock := lock.isLt
  cases hholds with
  | keep hr hw =>
    -- holds go down at most, so what excluded others still does
    refine ⟨hword, ?_, ?_⟩
    · dsimp only
      omega
    · dsimp only
      rcases hs.exclusive with h | h
      · exact Or.inl (by omega)
      · omega
  | read hsign hidle hr hw =>
    -- a writer would have left the word negative: what 127 others have in it is below `2 ^ 31`
    have hlow : lock.toNat < 2 ^ 31 := by
      have := BitVec.msb_eq_false_iff_two_mul_lt.mp hsign
      omega
    have hothers := hattempts hidle
    rw [hsplit] at hword
    refine ⟨by rw [hsplit]; exact hword, ?_, ?_⟩
    · dsimp only
      rcases hs.exclusive with h | h
      · omega
      · omega
    · dsimp only
      left
      rcases hs.exclusive with h | h
      · omega
      · omega
  | write hzero hidle hw hr =>
    -- the word is 0, so all of the bias is this writer's share
    have hlow : lock.toNat = 0 := by
      rw [hzero]
      rfl
    have hothers := hattempts hidle
    rw [hsplit] at hword
    refine ⟨by rw [hsplit]; exact hword, ?_, ?_⟩
    · dsimp only
      omega
    · dsimp only
      right
      rcases hs.exclusive with h | h
      · omega
      · omega

theorem LockInv.safe {s : LockState n} (hs : LockInv s) : LockSafe s := by
  have hone : Transition.total Cpu.writes s.proc ≤ 1 := by
    rcases hs.exclusive with h | h
    · omega
    · omega
  constructor
  · intro i j hi hj
    by_contra hne
    have := Transition.add_le_total Cpu.writes s.proc hne
    omega
  · intro i j hi
    have hwrites := Transition.le_total Cpu.writes s.proc i
    have hreads := Transition.le_total Cpu.reads s.proc j
    rcases hs.exclusive with h | h
    · omega
    · omega
  · intro hquiet
    have hshare : Transition.total Cpu.share s.proc = 0 :=
      Transition.total_eq_zero fun i ↦ by rw [hquiet i]; rfl
    have hword := hs.word
    rw [hshare, Nat.add_zero, Nat.mod_eq_of_lt s.value.isLt] at hword
    exact BitVec.eq_of_toNat_eq hword

/-- **Reader/writer exclusion**, for up to 128 CPUs and any interleaving. -/
theorem lockSafe_of_reachable (hn : n ≤ 128) {s : LockState n}
    (hs : Transition.Reachable (rwlock n) s) : LockSafe s := by
  have hinv : Transition.Invariant (rwlock n) LockInv := by
    constructor
    · rintro s rfl
      exact lockInv_init
    · rintro s t hs ⟨i, lock, c, ⟨op, hstep⟩, rfl⟩
      obtain ⟨hconserved, hholds⟩ := cpuStep_spec hstep
      exact hs.step hn i hconserved hholds
  exact (hinv.of_reachable hs).safe

end

/-- Two CPUs, one of which holds the lock for reading while the other is about to undo a failed
attempt to write. -/
theorem lockSafe_two_cpus :
    LockSafe (⟨rwLockBias - 1#32 - rwLockBias, Function.update (Function.update
      (fun _ ↦ ⟨.idle, 0, 0⟩) 0 ⟨.idle, 1, 0⟩) 1 ⟨.writeAddl, 0, 0⟩⟩ : LockState 2) :=
  lockSafe_of_reachable (by decide) (.step (.step (.init rfl)
    ⟨0, _, _, ⟨.readLock, rfl⟩, rfl⟩) ⟨1, _, _, ⟨.writeLock, rfl⟩, rfl⟩)

end AphroditeOs
