import AphroditeOs.Lib.Progress
import AphroditeOs.Lock.Rwlock
import AphroditeOs.Lock.Spinlock

/-!
# When the locks can come free

A lock can be given back from every state but those in which a CPU waits for what it holds itself.
-/

namespace AphroditeOs

open Transition

/-! ## Spinlocks -/

def SpinCpu.rank (c : SpinCpu) : Nat := c.held + if c.pc = .idle then 0 else 2

/-- Whoever holds the lock is not waiting for it. -/
def SpinFree {n : Nat} (s : SpinState n) : Prop :=
  ∀ j, 0 < (s.proc j).held → (s.proc j).pc = .idle

abbrev SpinRun : BitVec 8 × SpinCpu → BitVec 8 × SpinCpu → Prop :=
  Solo fun slock c slock' c' ↦ ∃ op, spinStep op slock c = some (slock', c')

section

variable {n : Nat} {s t : SpinState n}

theorem spinInvariant (hn : n ≤ 128) : Invariant (spinlock n) SpinInv := by
  constructor
  · rintro s rfl
    exact spinInv_init
  · rintro s t hs ⟨i, slock, c, ⟨op, hop⟩, rfl⟩
    exact hs.step hn i (spinStep_spec hop)

theorem spinRun_unlock {slock : BitVec 8} {held : Nat} (hheld : 0 < held) :
    SpinRun (slock, ⟨.idle, held⟩) (1#8, ⟨.idle, held - 1⟩) := by
  apply Relation.ReflTransGen.single
  exact ⟨.unlock, if_pos hheld⟩

theorem spinRun_decb (held : Nat) : SpinRun (1#8, ⟨.decb, held⟩) (1#8, ⟨.idle, held⟩) := by
  have hdecb : decbLock 1#8 ⟨.decb, held⟩ = (0#8, ⟨.idle, held + 1⟩) := by
    rw [decbLock]
    exact congrArg (Prod.mk 0#8) (if_neg (by decide))
  refine solo_cons (v := 0#8) (c := ⟨.idle, held + 1⟩) ⟨.lock, congrArg some hdecb⟩ ?_
  exact spinRun_unlock (Nat.succ_pos held)

/-- On a free lock a CPU that waits gets in, and out again. -/
theorem spinRun_pass {c : SpinCpu} (hc : c.pc ≠ .idle) :
    SpinRun (1#8, c) (1#8, ⟨.idle, c.held⟩) := by
  obtain ⟨pc, held⟩ := c
  cases pc with
  | idle => contradiction
  | decb => exact spinRun_decb held
  | cmpb => exact solo_cons (v := 1#8) (c := ⟨.decb, held⟩) ⟨.lock, rfl⟩ (spinRun_decb held)

theorem SpinFree.update (hs : SpinFree s) (i : Fin n) (slock : BitVec 8) (held : Nat) :
    SpinFree (⟨slock, Function.update s.proc i ⟨.idle, held⟩⟩ : SpinState n) := by
  intro j hj
  dsimp only at hj ⊢
  by_cases hji : j = i
  · rw [hji, Function.update_self]
  · rw [Function.update_of_ne hji] at hj ⊢
    exact hs j hj

theorem SpinInv.eq_one (hs : SpinInv s) (hheld : total SpinCpu.held s.proc = 0) :
    s.value = 1#8 := by
  have hone := hs.locked
  apply BitVec.eq_of_toInt_eq
  show s.value.toInt = 1
  omega

/-- One CPU gives the lock back, or gets in and out. -/
theorem exists_spinRun (hs : SpinInv s) (hfree : SpinFree s)
    (hrank : total SpinCpu.rank s.proc ≠ 0) :
    ∃ i slock held, SpinRun (s.value, s.proc i) (slock, ⟨.idle, held⟩) ∧
      held < (s.proc i).rank := by
  by_cases hheld : ∃ i, 0 < (s.proc i).held
  · obtain ⟨i, hi⟩ := hheld
    have hidle := hfree i hi
    rcases hc : s.proc i with ⟨pc, held⟩
    rw [hc] at hi hidle
    dsimp only at hi hidle
    subst hidle
    refine ⟨i, 1#8, held - 1, ?_, ?_⟩
    · rw [hc]
      exact spinRun_unlock hi
    · rw [hc, SpinCpu.rank]
      dsimp only
      omega
  · have hnone : ∀ i, (s.proc i).held = 0 := fun i ↦ by
      by_contra hi
      exact hheld ⟨i, Nat.pos_of_ne_zero hi⟩
    obtain ⟨i, hi⟩ : ∃ i, (s.proc i).pc ≠ .idle := by
      by_contra hidle
      apply hrank
      apply total_eq_zero
      intro i
      rw [SpinCpu.rank, hnone i, if_pos (by_contra fun h ↦ hidle ⟨i, h⟩)]
    refine ⟨i, 1#8, (s.proc i).held, ?_, ?_⟩
    · rw [hs.eq_one (total_eq_zero hnone)]
      exact spinRun_pass hi
    · rw [SpinCpu.rank, if_neg hi]
      omega

theorem spin_unlocked_of_rank (hs : SpinInv s) (hrank : total SpinCpu.rank s.proc = 0) :
    s = ⟨spinLockUnlocked, fun _ ↦ ⟨.idle, 0⟩⟩ := by
  have hzero : ∀ i, (s.proc i).rank = 0 := fun i ↦
    Nat.le_zero.mp (hrank ▸ le_total SpinCpu.rank s.proc i)
  have hheld : ∀ i, (s.proc i).held = 0 := fun i ↦ by
    have := hzero i
    unfold SpinCpu.rank at this
    omega
  have hproc : ∀ i, s.proc i = ⟨.idle, 0⟩ := by
    intro i
    have hidle : (s.proc i).pc = .idle := by
      by_contra hpc
      have := hzero i
      rw [SpinCpu.rank, if_neg hpc] at this
      omega
    rw [← hidle, ← hheld i]
  obtain ⟨value, proc⟩ := s
  rw [show proc = fun _ ↦ ⟨.idle, 0⟩ from funext hproc]
  exact congrArg (Shared.mk · _) (hs.eq_one (total_eq_zero hheld))

theorem spinSteps_unlocked (hn : n ≤ 128) (hs : SpinInv s) (hfree : SpinFree s) :
    Steps (spinlock n) s ⟨spinLockUnlocked, fun _ ↦ ⟨.idle, 0⟩⟩ := by
  have hdown : ∀ s : SpinState n, SpinInv s ∧ SpinFree s → total SpinCpu.rank s.proc ≠ 0 →
      ∃ t, Steps (spinlock n) s t ∧ (SpinInv t ∧ SpinFree t) ∧
        total SpinCpu.rank t.proc < total SpinCpu.rank s.proc := by
    intro s ⟨hs, hfree⟩ hrank
    obtain ⟨i, slock, held, hrun, hless⟩ := exists_spinRun hs hfree hrank
    have hsteps : Steps (spinlock n) s _ := steps_of_solo hrun
    refine ⟨_, hsteps, ⟨(spinInvariant hn).of_steps hs hsteps, hfree.update i slock held⟩, ?_⟩
    have hupdate := total_update SpinCpu.rank s.proc i ⟨.idle, held⟩
    have hnew : (⟨.idle, held⟩ : SpinCpu).rank = held := rfl
    dsimp only
    omega
  obtain ⟨t, hst, ⟨ht, _⟩, hend⟩ :=
    exists_steps_of_measure (fun s : SpinState n ↦ total SpinCpu.rank s.proc) hdown ⟨hs, hfree⟩
  rw [← spin_unlocked_of_rank ht hend]
  exact hst

/-! ### Waiting for a holder that waits -/

/-- On a lock that is held a CPU goes on waiting. -/
theorem spinStep_waits {op : SpinOp} {slock slock' : BitVec 8} {c c' : SpinCpu}
    (hlow : -128 < slock.toInt ∨ c.pc = .cmpb) (hlocked : slock.toInt ≤ 0) (hc : c.pc ≠ .idle)
    (h : spinStep op slock c = some (slock', c')) : c'.pc ≠ .idle ∧ c'.held = c.held := by
  obtain ⟨pc, held⟩ := c
  cases pc with
  | idle => contradiction
  | decb =>
    have hvalue := toInt_sub_one (hlow.resolve_right (by simp))
    obtain ⟨rfl, rfl⟩ := Prod.mk.inj (Option.some.inj h)
    rw [if_pos (by rw [BitVec.msb_eq_toInt]; exact decide_eq_true (by omega))]
    exact ⟨by simp, rfl⟩
  | cmpb =>
    obtain ⟨rfl, rfl⟩ := Prod.mk.inj (Option.some.inj h)
    rw [if_pos hlocked]
    exact ⟨by simp, rfl⟩

theorem SpinInv.locked_of_held (hs : SpinInv s) {j : Fin n} (hj : 0 < (s.proc j).held) :
    s.value.toInt ≤ 0 := by
  have hmine := le_total SpinCpu.held s.proc j
  have hlocked := hs.locked
  omega

/-- A CPU that waits still does after the step of any CPU, while the lock is held. -/
theorem SpinInv.waits_step (hn : n ≤ 128) (hs : SpinInv s) {j : Fin n} (hj : 0 < (s.proc j).held)
    (hstep : (spinlock n).Step s t) {i : Fin n} (hi : (s.proc i).pc ≠ .idle) :
    (t.proc i).pc ≠ .idle ∧ (t.proc i).held = (s.proc i).held := by
  obtain ⟨k, slock, c, ⟨op, hop⟩, rfl⟩ := hstep
  dsimp only
  by_cases hik : i = k
  · subst hik
    rw [Function.update_self]
    refine spinStep_waits ?_ (hs.locked_of_held hj) hi hop
    by_cases hpc : (s.proc i).pc = .cmpb
    · exact Or.inr hpc
    · exact Or.inl (hs.neg_lt hn hpc)
  · rw [Function.update_of_ne hik]
    exact ⟨hi, rfl⟩

theorem SpinInv.waits_steps (hn : n ≤ 128) (hs : SpinInv s) {j : Fin n}
    (hj : 0 < (s.proc j).held) (hwait : (s.proc j).pc ≠ .idle) (hst : Steps (spinlock n) s t)
    {i : Fin n} (hi : (s.proc i).pc ≠ .idle) : (t.proc i).pc ≠ .idle := by
  have hkeep : ∀ s t : SpinState n,
      SpinInv s ∧ (0 < (s.proc j).held ∧ (s.proc j).pc ≠ .idle) ∧ (s.proc i).pc ≠ .idle →
      (spinlock n).Step s t →
      SpinInv t ∧ (0 < (t.proc j).held ∧ (t.proc j).pc ≠ .idle) ∧ (t.proc i).pc ≠ .idle := by
    intro s t ⟨hs, ⟨hj, hwait⟩, hi⟩ hstep
    obtain ⟨hpc, hheld⟩ := hs.waits_step hn hj hstep hwait
    exact ⟨(spinInvariant hn).step s t hs hstep, ⟨hheld ▸ hj, hpc⟩,
      (hs.waits_step hn hj hstep hi).1⟩
  exact (steps_keep hkeep ⟨hs, ⟨hj, hwait⟩, hi⟩ hst).2.2

/-- **The spinlock deadlocks only on itself**: its first state can be come back to unless a holder
waits for the lock again, and then whoever waits does so for ever. -/
theorem spinlock_progress (hn : n ≤ 128) (hs : Reachable (spinlock n) s) :
    (Steps (spinlock n) s ⟨spinLockUnlocked, fun _ ↦ ⟨.idle, 0⟩⟩ ↔
      ∀ j, 0 < (s.proc j).held → (s.proc j).pc = .idle) ∧
    ((∃ j, 0 < (s.proc j).held ∧ (s.proc j).pc ≠ .idle) →
      ∀ t i, Steps (spinlock n) s t → (s.proc i).pc ≠ .idle → (t.proc i).pc ≠ .idle) := by
  have hinv := (spinInvariant hn).of_reachable hs
  refine ⟨⟨?_, spinSteps_unlocked hn hinv⟩, ?_⟩
  · intro hsteps j hj
    by_contra hpc
    exact hinv.waits_steps hn hj hpc hsteps hpc rfl
  · intro ⟨j, hj, hwait⟩ t i hst hi
    exact hinv.waits_steps hn hj hwait hst hi

end

/-- One CPU holds the lock while the other polls. -/
theorem spinlock_progress_two_cpus :
    Steps (spinlock 2) ⟨spinLockUnlocked - 1#8 - 1#8, Function.update (Function.update
      (fun _ ↦ ⟨.idle, 0⟩) 0 ⟨.idle, 1⟩) 1 ⟨.cmpb, 0⟩⟩ ⟨spinLockUnlocked, fun _ ↦ ⟨.idle, 0⟩⟩ :=
  (spinlock_progress (by decide) (.step (.step (.init rfl)
    ⟨0, _, _, ⟨.lock, rfl⟩, rfl⟩) ⟨1, _, _, ⟨.lock, rfl⟩, rfl⟩)).1.mpr (by decide)

/-! ## Reader/writer locks -/

def Pc.waitsRead : Pc → Bool
  | .readIncl | .readCmpl | .readDecl => true
  | _ => false

def Pc.waitsWrite : Pc → Bool
  | .writeAddl | .writeCmpl | .writeSubl => true
  | _ => false

def Pc.rank : Pc → Nat
  | .idle => 0
  | .readCmpl | .writeCmpl => 1
  | _ => 2

def Cpu.rank (c : Cpu) : Nat := c.reads + c.writes + c.pc.rank

/-- A CPU in the way of its own attempt. -/
def Cpu.Stuck (c : Cpu) : Prop :=
  c.pc.waitsRead = true ∧ 0 < c.writes ∨ c.pc.waitsWrite = true ∧ 0 < c.reads + c.writes

/-- The lock is held for reading as often as the bias allows, by CPUs that all want it once more. -/
def ReadersFull {n : Nat} (s : LockState n) : Prop :=
  total Cpu.reads s.proc = 2 ^ 24 ∧ ∀ j, 0 < (s.proc j).reads → (s.proc j).pc.waitsRead = true

abbrev LockRun : BitVec 32 × Cpu → BitVec 32 × Cpu → Prop :=
  Solo fun lock c lock' c' ↦ ∃ op, cpuStep op lock c = some (lock', c')

/-- The CPU rests, or goes on with the same attempt. -/
structure Eases (c c' : Cpu) : Prop where
  reads_le : c'.reads ≤ c.reads
  writes_le : c'.writes ≤ c.writes
  pc : c'.pc = .idle ∨ c'.reads = c.reads ∧ c'.pc.waitsRead = c.pc.waitsRead ∧
    c'.pc.waitsWrite = c.pc.waitsWrite

theorem Eases.not_stuck {c c' : Cpu} (h : Eases c c') (hc : ¬c.Stuck) : ¬c'.Stuck := by
  have hreads := h.reads_le
  have hwrites := h.writes_le
  intro hstuck
  rcases h.pc with hidle | ⟨-, hread, hwrite⟩
  · unfold Cpu.Stuck at hstuck
    rw [hidle] at hstuck
    simp [Pc.waitsRead, Pc.waitsWrite] at hstuck
  · apply hc
    unfold Cpu.Stuck at hstuck ⊢
    rw [hread, hwrite] at hstuck
    rcases hstuck with ⟨hw, hheld⟩ | ⟨hw, hheld⟩
    · exact Or.inl ⟨hw, by omega⟩
    · exact Or.inr ⟨hw, by omega⟩

/-! ### One CPU alone -/

section

theorem lockRun_readUnlock (lock : BitVec 32) {reads : Nat} (writes : Nat) (hreads : 0 < reads) :
    LockRun (lock, ⟨.idle, reads, writes⟩) (lock + 1#32, ⟨.idle, reads - 1, writes⟩) :=
  .single ⟨.readUnlock, if_pos hreads⟩

theorem lockRun_writeUnlock (lock : BitVec 32) (reads : Nat) {writes : Nat} (hwrites : 0 < writes) :
    LockRun (lock, ⟨.idle, reads, writes⟩) (lock + rwLockBias, ⟨.idle, reads, writes - 1⟩) :=
  .single ⟨.writeUnlock, if_pos hwrites⟩

variable {lock : BitVec 32} {reads writes : Nat}

theorem lockRun_readDecl (hsign : (lock - 1#32).msb = false) :
    LockRun (lock, ⟨.readDecl, reads, writes⟩) (lock, ⟨.idle, reads, writes⟩) := by
  have hdecl : cpuStep .readLock lock ⟨.readDecl, reads, writes⟩ =
      some (lock - 1#32, ⟨.idle, reads + 1, writes⟩) := by
    show some (lock - 1#32, if (lock - 1#32).msb then _ else _) = _
    rw [hsign]
    rfl
  have hback := lockRun_readUnlock (lock - 1#32) writes (Nat.succ_pos reads)
  rw [BitVec.sub_add_cancel] at hback
  exact solo_cons (v := lock - 1#32) (c := ⟨.idle, reads + 1, writes⟩) ⟨.readLock, hdecl⟩ hback

/-- A CPU that waits to read gets in where the word allows it, and out again. -/
theorem lockRun_readCmpl (hsign : (lock - 1#32).msb = false) :
    LockRun (lock, ⟨.readCmpl, reads, writes⟩) (lock, ⟨.idle, reads, writes⟩) := by
  have hcmpl : cpuStep .readLock lock ⟨.readCmpl, reads, writes⟩ =
      some (lock, ⟨.readDecl, reads, writes⟩) := by
    show some (lock, if (lock - 1#32).msb then _ else _) = _
    rw [hsign]
    rfl
  exact solo_cons (v := lock) (c := ⟨.readDecl, reads, writes⟩) ⟨.readLock, hcmpl⟩
    (lockRun_readDecl hsign)

theorem lockRun_writeSubl (hzero : lock - rwLockBias = 0#32) :
    LockRun (lock, ⟨.writeSubl, reads, writes⟩) (lock, ⟨.idle, reads, writes⟩) := by
  have hsubl : cpuStep .writeLock lock ⟨.writeSubl, reads, writes⟩ =
      some (lock - rwLockBias, ⟨.idle, reads, writes + 1⟩) := by
    simp only [cpuStep, if_pos hzero]
  have hback := lockRun_writeUnlock (lock - rwLockBias) reads (Nat.succ_pos writes)
  rw [BitVec.sub_add_cancel] at hback
  exact solo_cons (v := lock - rwLockBias) (c := ⟨.idle, reads, writes + 1⟩)
    ⟨.writeLock, hsubl⟩ hback

theorem lockRun_writeCmpl :
    LockRun (rwLockBias, ⟨.writeCmpl, reads, writes⟩) (rwLockBias, ⟨.idle, reads, writes⟩) :=
  solo_cons (v := rwLockBias) (c := ⟨.writeSubl, reads, writes⟩)
    ⟨.writeLock, by simp only [cpuStep, if_true]⟩
    (lockRun_writeSubl (BitVec.sub_self rwLockBias))

theorem lockRun_readIncl :
    LockRun (lock, ⟨.readIncl, reads, writes⟩) (lock + 1#32, ⟨.readCmpl, reads, writes⟩) :=
  .single ⟨.readLock, rfl⟩

theorem lockRun_writeAddl :
    LockRun (lock, ⟨.writeAddl, reads, writes⟩) (lock + rwLockBias, ⟨.writeCmpl, reads, writes⟩) :=
  .single ⟨.writeLock, rfl⟩

/-- Whatever a CPU is in the midst of, it comes to rest or to the loop of its helper. -/
theorem exists_lockRun_settled (lock : BitVec 32) {c : Cpu} (hc : c.pc.rank = 2) :
    ∃ lock' pc, LockRun (lock, c) (lock', { c with pc := pc }) ∧ pc.rank < 2 ∧
      (pc = .idle ∨ pc.waitsRead = c.pc.waitsRead ∧ pc.waitsWrite = c.pc.waitsWrite) := by
  obtain ⟨pc, reads, writes⟩ := c
  cases pc with
  | idle | readCmpl | writeCmpl => simp [Pc.rank] at hc
  | readIncl => exact ⟨_, .readCmpl, lockRun_readIncl, by decide, .inr ⟨rfl, rfl⟩⟩
  | writeAddl => exact ⟨_, .writeCmpl, lockRun_writeAddl, by decide, .inr ⟨rfl, rfl⟩⟩
  | readDecl =>
    by_cases hsign : (lock - 1#32).msb = true
    · -- the attempt fails again
      have hdecl : cpuStep .readLock lock ⟨.readDecl, reads, writes⟩ =
          some (lock - 1#32, ⟨.readIncl, reads, writes⟩) := by
        simp only [cpuStep, if_pos hsign]
      exact ⟨_, .readCmpl, solo_cons (v := lock - 1#32) (c := ⟨.readIncl, reads, writes⟩)
        ⟨.readLock, hdecl⟩ lockRun_readIncl, by decide, .inr ⟨rfl, rfl⟩⟩
    · exact ⟨_, .idle, lockRun_readDecl (Bool.eq_false_iff.mpr hsign), by decide, .inl rfl⟩
  | writeSubl =>
    by_cases hzero : lock - rwLockBias = 0#32
    · exact ⟨_, .idle, lockRun_writeSubl hzero, by decide, .inl rfl⟩
    · have hsubl : cpuStep .writeLock lock ⟨.writeSubl, reads, writes⟩ =
          some (lock - rwLockBias, ⟨.writeAddl, reads, writes⟩) := by
        simp only [cpuStep, if_neg hzero]
      exact ⟨_, .writeCmpl, solo_cons (v := lock - rwLockBias) (c := ⟨.writeAddl, reads, writes⟩)
        ⟨.writeLock, hsubl⟩ lockRun_writeAddl, by decide, .inr ⟨rfl, rfl⟩⟩
  | tryInc =>
    exact ⟨lock + 1#32, .idle, .single ⟨.readLock, rfl⟩, by decide, .inl rfl⟩
  | tryRead =>
    by_cases hsign : lock.msb = true
    · have htry : cpuStep .readLock lock ⟨.tryRead, reads, writes⟩ =
          some (lock, ⟨.tryInc, reads, writes⟩) := by
        simp only [cpuStep, if_pos hsign]
      exact ⟨lock + 1#32, .idle, solo_cons (v := lock) (c := ⟨.tryInc, reads, writes⟩)
        ⟨.readLock, htry⟩ (.single ⟨.readLock, rfl⟩), by decide, .inl rfl⟩
    · have htry : cpuStep .readLock lock ⟨.tryRead, reads, writes⟩ =
          some (lock, ⟨.idle, reads + 1, writes⟩) := by
        simp only [cpuStep, if_neg hsign]
      exact ⟨_, .idle, solo_cons (v := lock) (c := ⟨.idle, reads + 1, writes⟩) ⟨.readLock, htry⟩
        (lockRun_readUnlock lock writes (Nat.succ_pos reads)), by decide, .inl rfl⟩

end

/-! ### All CPUs -/

section

variable {n : Nat} {s t : LockState n}

theorem lockInvariant (hn : n ≤ 128) : Invariant (rwlock n) LockInv := by
  constructor
  · rintro s rfl
    exact lockInv_init
  · rintro s t hs ⟨i, lock, c, ⟨op, hop⟩, rfl⟩
    obtain ⟨hconserved, hholds⟩ := cpuStep_spec hop
    exact hs.step hn i hconserved hholds

-- A move that eases one CPU fills nothing up.
theorem not_readersFull_update (hs : LockInv s) (hfull : ¬ReadersFull s) {i : Fin n} {c : Cpu}
    (hease : Eases (s.proc i) c) (lock : BitVec 32) :
    ¬ReadersFull (⟨lock, Function.update s.proc i c⟩ : LockState n) := by
  rintro ⟨htotal, hwait⟩
  have hmine := hwait i
  dsimp only at htotal hmine
  rw [Function.update_self] at hmine
  have hupdate := total_update Cpu.reads s.proc i c
  have hmax := hs.reads_le
  have hless := hease.reads_le
  -- the reads stay, so the CPU had the same ones before
  have hsame : c.reads = (s.proc i).reads := by
    rcases hease.pc with hidle | ⟨hreads, -, -⟩
    · have hzero : c.reads = 0 := by
        by_contra hne
        have := hmine (Nat.pos_of_ne_zero hne)
        rw [hidle] at this
        contradiction
      omega
    · exact hreads
  apply hfull
  refine ⟨by omega, fun j hj ↦ ?_⟩
  by_cases hji : j = i
  · rw [hji] at hj ⊢
    rw [← hsame] at hj
    rcases hease.pc with hidle | ⟨-, hread, -⟩
    · have := hmine hj
      rw [hidle] at this
      contradiction
    · rw [← hread]
      exact hmine hj
  · have := hwait j
    dsimp only at this
    rw [Function.update_of_ne hji] at this
    exact this hj

theorem LockInv.value_eq (hs : LockInv s) (hsettled : ∀ i, (s.proc i).pc.rank < 2)
    (hwrites : total Cpu.writes s.proc = 0) :
    s.value.toNat = 2 ^ 24 - total Cpu.reads s.proc := by
  have hshares : ∀ i, (s.proc i).pc.readShare = 0 ∧ (s.proc i).pc.writeShare = 0 := by
    intro i
    have hpc := hsettled i
    cases hc : (s.proc i).pc <;> rw [hc] at hpc <;> first | exact ⟨rfl, rfl⟩ | contradiction
  have hread := total_eq_zero (f := fun c : Cpu ↦ c.pc.readShare) fun i ↦ (hshares i).1
  have hwrite := total_eq_zero (f := fun c : Cpu ↦ c.pc.writeShare) fun i ↦ (hshares i).2
  have hword := hs.word
  rw [total_share, hread, hwrite, hwrites] at hword
  have hlt := s.value.isLt
  have hmax := hs.reads_le
  omega

/-- A CPU that waits for nobody gets in and out. -/
theorem exists_lockRun_pass (hs : LockInv s) (hstuck : ∀ j, ¬(s.proc j).Stuck)
    (hfull : ¬ReadersFull s) (hsettled : ∀ i, (s.proc i).pc.rank < 2)
    (hidle : ∀ i, (s.proc i).pc = .idle → (s.proc i).reads = 0 ∧ (s.proc i).writes = 0)
    (hrank : total Cpu.rank s.proc ≠ 0) :
    ∃ i, (s.proc i).pc ≠ .idle ∧
      LockRun (s.value, s.proc i) (s.value, { s.proc i with pc := .idle }) := by
  have hcases : ∀ i, (s.proc i).pc = .idle ∨ (s.proc i).pc = .readCmpl ∨
      (s.proc i).pc = .writeCmpl := by
    intro i
    have hpc := hsettled i
    cases hc : (s.proc i).pc <;> rw [hc] at hpc <;> first | contradiction | simp
  -- a writer would be idle or wait for itself
  have hwrites : ∀ i, (s.proc i).writes = 0 := by
    intro i
    by_contra hne
    rcases hcases i with hpc | hpc | hpc
    · exact hne (hidle i hpc).2
    · exact hstuck i (Or.inl ⟨by rw [hpc]; rfl, by omega⟩)
    · exact hstuck i (Or.inr ⟨by rw [hpc]; rfl, by omega⟩)
  have hreaders : ∀ i, 0 < (s.proc i).reads → (s.proc i).pc = .readCmpl := by
    intro i hi
    rcases hcases i with hpc | hpc | hpc
    · have := (hidle i hpc).1
      omega
    · exact hpc
    · exact absurd (Or.inr ⟨by rw [hpc]; rfl, by omega⟩) (hstuck i)
  have hvalue := hs.value_eq hsettled (total_eq_zero hwrites)
  by_cases hread : ∃ i, (s.proc i).pc = .readCmpl
  · obtain ⟨i, hi⟩ := hread
    refine ⟨i, by simp [hi], ?_⟩
    have hless : total Cpu.reads s.proc ≠ 2 ^ 24 := fun htotal ↦
      hfull ⟨htotal, fun j hj ↦ by rw [hreaders j hj]; rfl⟩
    have hmax := hs.reads_le
    have hsign : (s.value - 1#32).msb = false := by
      have hsub : (s.value - 1#32).toNat = s.value.toNat - 1 :=
        BitVec.toNat_sub_of_le (BitVec.le_def.mpr (show 1 ≤ s.value.toNat by omega))
      rw [BitVec.msb_eq_false_iff_two_mul_lt]
      omega
    rcases hc : s.proc i with ⟨pc, reads, writes⟩
    rw [hc] at hi
    dsimp only at hi
    subst hi
    exact lockRun_readCmpl hsign
  · have hreads : ∀ i, (s.proc i).reads = 0 := by
      intro i
      by_contra hne
      exact hread ⟨i, hreaders i (Nat.pos_of_ne_zero hne)⟩
    obtain ⟨i, hi⟩ : ∃ i, (s.proc i).pc = .writeCmpl := by
      by_contra hnone
      apply hrank
      apply total_eq_zero
      intro i
      have hpc : (s.proc i).pc = .idle := by
        rcases hcases i with hpc | hpc | hpc
        · exact hpc
        · exact absurd ⟨i, hpc⟩ hread
        · exact absurd ⟨i, hpc⟩ hnone
      rw [Cpu.rank, hreads i, hwrites i, hpc]
      rfl
    refine ⟨i, by simp [hi], ?_⟩
    have hbias : s.value = rwLockBias := by
      apply BitVec.eq_of_toNat_eq
      rw [hvalue, total_eq_zero hreads, toNat_rwLockBias, Nat.sub_zero]
    rcases hc : s.proc i with ⟨pc, reads, writes⟩
    rw [hc] at hi
    dsimp only at hi
    subst hi
    rw [hbias]
    exact lockRun_writeCmpl

/-- Some CPU can go on until it is at rest with less. -/
theorem exists_lockRun (hs : LockInv s) (hstuck : ∀ j, ¬(s.proc j).Stuck) (hfull : ¬ReadersFull s)
    (hrank : total Cpu.rank s.proc ≠ 0) :
    ∃ i lock c, LockRun (s.value, s.proc i) (lock, c) ∧ Eases (s.proc i) c ∧
      c.rank < (s.proc i).rank := by
  by_cases hmidst : ∃ i, (s.proc i).pc.rank = 2
  · obtain ⟨i, hi⟩ := hmidst
    obtain ⟨lock, pc, hrun, hless, hpc⟩ := exists_lockRun_settled s.value hi
    refine ⟨i, lock, _, hrun, ⟨le_rfl, le_rfl, ?_⟩, ?_⟩
    · rcases hpc with hidle | hsame
      · exact Or.inl hidle
      · exact Or.inr ⟨rfl, hsame⟩
    · unfold Cpu.rank
      dsimp only
      omega
  by_cases hidle : ∃ i, (s.proc i).pc = .idle ∧ ((s.proc i).reads ≠ 0 ∨ (s.proc i).writes ≠ 0)
  · obtain ⟨i, hi, hheld⟩ := hidle
    rcases hc : s.proc i with ⟨pc, reads, writes⟩
    rw [hc] at hi hheld
    dsimp only at hi hheld
    subst hi
    rcases hheld with hreads | hwrites
    · have hrun := lockRun_readUnlock s.value writes (Nat.pos_of_ne_zero hreads)
      rw [← hc] at hrun
      refine ⟨i, _, _, hrun, ?_, ?_⟩
      · rw [hc]
        exact ⟨Nat.sub_le _ _, le_rfl, Or.inl rfl⟩
      · rw [hc]
        unfold Cpu.rank
        dsimp only
        omega
    · have hrun := lockRun_writeUnlock s.value reads (Nat.pos_of_ne_zero hwrites)
      rw [← hc] at hrun
      refine ⟨i, _, _, hrun, ?_, ?_⟩
      · rw [hc]
        exact ⟨le_rfl, Nat.sub_le _ _, Or.inl rfl⟩
      · rw [hc]
        unfold Cpu.rank
        dsimp only
        omega
  · have hsettled : ∀ i, (s.proc i).pc.rank < 2 := by
      intro i
      have hmax : (s.proc i).pc.rank ≤ 2 := by cases (s.proc i).pc <;> decide
      have hne : (s.proc i).pc.rank ≠ 2 := fun h ↦ hmidst ⟨i, h⟩
      omega
    have hrest : ∀ i, (s.proc i).pc = .idle → (s.proc i).reads = 0 ∧ (s.proc i).writes = 0 := by
      intro i hi
      by_contra hheld
      exact hidle ⟨i, hi, by omega⟩
    obtain ⟨i, hpc, hrun⟩ := exists_lockRun_pass hs hstuck hfull hsettled hrest hrank
    refine ⟨i, _, _, hrun, ⟨le_rfl, le_rfl, Or.inl rfl⟩, ?_⟩
    unfold Cpu.rank
    dsimp only
    cases hc : (s.proc i).pc <;> first | exact absurd hc hpc | simp [Pc.rank]

theorem lock_unlocked_of_rank (hs : LockInv s) (hrank : total Cpu.rank s.proc = 0) :
    s = ⟨rwLockBias, fun _ ↦ ⟨.idle, 0, 0⟩⟩ := by
  have hproc : ∀ i, s.proc i = ⟨.idle, 0, 0⟩ := by
    intro i
    have hzero : (s.proc i).rank = 0 := Nat.le_zero.mp (hrank ▸ le_total Cpu.rank s.proc i)
    rcases hc : s.proc i with ⟨pc, reads, writes⟩
    rw [hc, Cpu.rank] at hzero
    dsimp only at hzero
    obtain rfl : reads = 0 := by omega
    obtain rfl : writes = 0 := by omega
    cases pc <;> first | rfl | simp [Pc.rank] at hzero
  have hvalue := hs.safe.quiet hproc
  obtain ⟨value, proc⟩ := s
  rw [show proc = fun _ ↦ ⟨.idle, 0, 0⟩ from funext hproc]
  exact congrArg (Shared.mk · _) hvalue

theorem lockSteps_unlocked (hn : n ≤ 128) (hs : LockInv s) (hstuck : ∀ j, ¬(s.proc j).Stuck)
    (hfull : ¬ReadersFull s) : Steps (rwlock n) s ⟨rwLockBias, fun _ ↦ ⟨.idle, 0, 0⟩⟩ := by
  have hdown : ∀ s : LockState n, LockInv s ∧ (∀ j, ¬(s.proc j).Stuck) ∧ ¬ReadersFull s →
      total Cpu.rank s.proc ≠ 0 → ∃ t, Steps (rwlock n) s t ∧
        (LockInv t ∧ (∀ j, ¬(t.proc j).Stuck) ∧ ¬ReadersFull t) ∧
        total Cpu.rank t.proc < total Cpu.rank s.proc := by
    intro s ⟨hs, hstuck, hfull⟩ hrank
    obtain ⟨i, lock, c, hrun, hease, hless⟩ := exists_lockRun hs hstuck hfull hrank
    have hsteps : Steps (rwlock n) s _ := steps_of_solo hrun
    refine ⟨_, hsteps, ⟨(lockInvariant hn).of_steps hs hsteps, fun j ↦ ?_,
      not_readersFull_update hs hfull hease lock⟩, ?_⟩
    · dsimp only
      by_cases hji : j = i
      · rw [hji, Function.update_self]
        exact hease.not_stuck (hstuck i)
      · rw [Function.update_of_ne hji]
        exact hstuck j
    · have hupdate := total_update Cpu.rank s.proc i c
      dsimp only
      omega
  obtain ⟨t, hst, ⟨ht, _⟩, hend⟩ := exists_steps_of_measure
    (fun s : LockState n ↦ total Cpu.rank s.proc) hdown ⟨hs, hstuck, hfull⟩
  rw [← lock_unlocked_of_rank ht hend]
  exact hst

/-! ### Attempts that stay -/

theorem cpuStep_waitsRead {op : LockOp} {lock lock' : BitVec 32} {c c' : Cpu}
    (hc : c.pc.waitsRead = true) (h : cpuStep op lock c = some (lock', c')) :
    c'.writes = c.writes ∧
      (c'.pc.waitsRead = true ∧ c'.reads = c.reads ∨ c'.reads = c.reads + 1) := by
  obtain ⟨pc, reads, writes⟩ := c
  cases pc with
  | readIncl =>
    obtain ⟨rfl, rfl⟩ := Prod.mk.inj (Option.some.inj h)
    exact ⟨rfl, Or.inl ⟨rfl, rfl⟩⟩
  | readCmpl =>
    obtain ⟨rfl, rfl⟩ := Prod.mk.inj (Option.some.inj h)
    split
    · exact ⟨rfl, Or.inl ⟨rfl, rfl⟩⟩
    · exact ⟨rfl, Or.inl ⟨rfl, rfl⟩⟩
  | readDecl =>
    obtain ⟨rfl, rfl⟩ := Prod.mk.inj (Option.some.inj h)
    split
    · exact ⟨rfl, Or.inl ⟨rfl, rfl⟩⟩
    · exact ⟨rfl, Or.inr rfl⟩
  | _ => contradiction

theorem cpuStep_waitsWrite {op : LockOp} {lock lock' : BitVec 32} {c c' : Cpu}
    (hc : c.pc.waitsWrite = true) (h : cpuStep op lock c = some (lock', c')) :
    c'.reads = c.reads ∧
      (c'.pc.waitsWrite = true ∧ c'.writes = c.writes ∨ c'.writes = c.writes + 1) := by
  obtain ⟨pc, reads, writes⟩ := c
  cases pc with
  | writeAddl =>
    obtain ⟨rfl, rfl⟩ := Prod.mk.inj (Option.some.inj h)
    exact ⟨rfl, Or.inl ⟨rfl, rfl⟩⟩
  | writeCmpl =>
    obtain ⟨rfl, rfl⟩ := Prod.mk.inj (Option.some.inj h)
    split
    · exact ⟨rfl, Or.inl ⟨rfl, rfl⟩⟩
    · exact ⟨rfl, Or.inl ⟨rfl, rfl⟩⟩
  | writeSubl =>
    obtain ⟨rfl, rfl⟩ := Prod.mk.inj (Option.some.inj h)
    split
    · exact ⟨rfl, Or.inr rfl⟩
    · exact ⟨rfl, Or.inl ⟨rfl, rfl⟩⟩
  | _ => contradiction

/-- A CPU in its own way gets no further: to get in it would have to be reader and writer, or
writer twice. -/
theorem stuck_step (hn : n ≤ 128) (hs : LockInv s) {j : Fin n} (hj : (s.proc j).Stuck)
    (hstep : (rwlock n).Step s t) : (t.proc j).Stuck := by
  have ht := (lockInvariant hn).step s t hs hstep
  obtain ⟨i, lock, c, ⟨op, hop⟩, rfl⟩ := hstep
  have hreads := le_total Cpu.reads (Function.update s.proc i c) j
  have hwrites := le_total Cpu.writes (Function.update s.proc i c) j
  have hexclusive := ht.exclusive
  dsimp only at hexclusive ⊢
  by_cases hji : j = i
  · subst hji
    rw [Function.update_self] at hreads hwrites ⊢
    rcases hj with ⟨hpc, hheld⟩ | ⟨hpc, hheld⟩
    · obtain ⟨hsame, ⟨hstay, -⟩ | hmore⟩ := cpuStep_waitsRead hpc hop
      · exact Or.inl ⟨hstay, by omega⟩
      · omega
    · obtain ⟨hsame, ⟨hstay, hless⟩ | hmore⟩ := cpuStep_waitsWrite hpc hop
      · exact Or.inr ⟨hstay, by omega⟩
      · omega
  · rw [Function.update_of_ne hji]
    exact hj

theorem readersFull_step (hn : n ≤ 128) (hs : LockInv s) (hfull : ReadersFull s)
    (hstep : (rwlock n).Step s t) : ReadersFull t := by
  have ht := (lockInvariant hn).step s t hs hstep
  obtain ⟨i, lock, c, ⟨op, hop⟩, rfl⟩ := hstep
  obtain ⟨htotal, hwait⟩ := hfull
  have hmax := ht.reads_le
  dsimp only at hmax
  have hupdate := total_update Cpu.reads s.proc i c
  have hkeep : c.reads = (s.proc i).reads ∧ (0 < c.reads → c.pc.waitsRead = true) := by
    by_cases hi : (s.proc i).pc.waitsRead = true
    · obtain ⟨-, ⟨hstay, hsame⟩ | hmore⟩ := cpuStep_waitsRead hi hop
      · exact ⟨hsame, fun _ ↦ hstay⟩
      · omega
    · have hnone : (s.proc i).reads = 0 := by
        by_contra hne
        exact hi (hwait i (Nat.pos_of_ne_zero hne))
      obtain ⟨-, hholds⟩ := cpuStep_spec hop
      cases hholds with
      | keep hr hw => exact ⟨by omega, fun h ↦ by omega⟩
      | read hsign hidle hr hw => omega
      | write hzero hidle hw hr => exact ⟨hr, fun h ↦ by omega⟩
  refine ⟨by dsimp only; omega, fun j hj ↦ ?_⟩
  dsimp only at hj ⊢
  by_cases hji : j = i
  · subst hji
    rw [Function.update_self] at hj ⊢
    exact hkeep.2 hj
  · rw [Function.update_of_ne hji] at hj ⊢
    exact hwait j hj

/-- **The reader/writer lock deadlocks only on itself**: its first state can be come back to unless
a writer waits to read or to write, a reader waits to write, or the most readers that the bias
allows all wait to read once more. -/
theorem rwlock_progress (hn : n ≤ 128) (hs : Reachable (rwlock n) s) :
    Steps (rwlock n) s ⟨rwLockBias, fun _ ↦ ⟨.idle, 0, 0⟩⟩ ↔
      (∀ j, ¬(s.proc j).Stuck) ∧ ¬ReadersFull s := by
  have hinv := (lockInvariant hn).of_reachable hs
  constructor
  · intro hsteps
    constructor
    · intro j hj
      have hkeep := steps_keep (I := fun s : LockState n ↦ LockInv s ∧ (s.proc j).Stuck)
        (fun s t ⟨hs, hj⟩ hstep ↦ ⟨(lockInvariant hn).step s t hs hstep, stuck_step hn hs hj hstep⟩)
        ⟨hinv, hj⟩ hsteps
      rcases hkeep.2 with ⟨hpc, -⟩ | ⟨hpc, -⟩
      · contradiction
      · contradiction
    · intro hfull
      have hkeep := steps_keep (I := fun s : LockState n ↦ LockInv s ∧ ReadersFull s)
        (fun s t ⟨hs, hf⟩ hstep ↦
          ⟨(lockInvariant hn).step s t hs hstep, readersFull_step hn hs hf hstep⟩)
        ⟨hinv, hfull⟩ hsteps
      have hnone : total Cpu.reads (fun _ : Fin n ↦ (⟨.idle, 0, 0⟩ : Cpu)) = 0 :=
        total_eq_zero fun _ ↦ rfl
      have htotal := hkeep.2.1
      dsimp only at htotal
      omega
  · rintro ⟨hstuck, hfull⟩
    exact lockSteps_unlocked hn hinv hstuck hfull

end

/-- One CPU that holds the lock for reading tries to get it for writing. -/
theorem rwlock_progress_upgrade :
    ¬Steps (rwlock 2) ⟨rwLockBias - 1#32 - rwLockBias, Function.update (Function.update
      (fun _ ↦ ⟨.idle, 0, 0⟩) 0 ⟨.idle, 1, 0⟩) 0 ⟨.writeAddl, 1, 0⟩⟩
      ⟨rwLockBias, fun _ ↦ ⟨.idle, 0, 0⟩⟩ := by
  intro hsteps
  have hfree := (rwlock_progress (by decide) (.step (.step (.init rfl)
    ⟨0, _, _, ⟨.readLock, rfl⟩, rfl⟩) ⟨0, _, _, ⟨.writeLock, rfl⟩, rfl⟩)).mp hsteps
  exact hfree.1 0 (Or.inr ⟨rfl, by decide⟩)

end AphroditeOs
