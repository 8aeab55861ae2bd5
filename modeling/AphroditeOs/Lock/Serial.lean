import AphroditeOs.Lock.Progress
import AphroditeOs.Lib.Critical

/-!
# What the locks protect (`include/asm/spinlock.h`, `include/asm/rwlock.h`)

CPUs that access data under a lock, one load or store after another, interleaved with all others and
with the instructions on the lock word.  Memory is sequentially consistent.
-/

namespace AphroditeOs

open Transition Critical

variable {n : Nat} {δ ρ : Type*}

/-! ## Spinlocks -/

def SpinCpu.mode (c : SpinCpu) : Mode := if 0 < c.held then .exclusive else .free

def guardSpin (n : Nat) : Lock (Fin n) (SpinState n) :=
  .ofInterleave spinLockUnlocked ⟨.idle, 0⟩
    (fun slock c slock' c' ↦ ∃ op, spinStep op slock c = some (slock', c')) SpinCpu.mode

theorem SpinCpu.mode_eq_exclusive {c : SpinCpu} : c.mode = .exclusive ↔ 0 < c.held := by
  unfold SpinCpu.mode
  split_ifs with h
  · exact iff_of_true rfl h
  · exact iff_of_false (by decide) h

theorem SpinCpu.mode_eq_free {c : SpinCpu} : c.mode = .free ↔ c.held = 0 := by
  unfold SpinCpu.mode
  split_ifs with h
  · exact iff_of_false (by decide) (by omega)
  · exact iff_of_true rfl (by omega)

theorem sound_guardSpin (hn : n ≤ 128) : (guardSpin n).Sound := by
  apply Lock.sound_ofInterleave (spinInvariant hn)
  · rfl
  · intro s i j hs hi hj
    have hi := SpinCpu.mode_eq_exclusive.mp hi
    apply SpinCpu.mode_eq_free.mpr
    by_contra hheld
    exact hj ((hs.safe hn).one_holder j i (Nat.pos_of_ne_zero hheld) hi)
  · intro s i v c hs ht hstep
    by_cases hold : (s.proc i).mode = .free
    · exact Or.inr (Or.inl hold)
    · by_cases hnew : c.mode = .free
      · exact Or.inr (Or.inr hnew)
      · rw [SpinCpu.mode_eq_free] at hold hnew
        left
        rw [SpinCpu.mode_eq_exclusive.mpr (Nat.pos_of_ne_zero hold)]
        exact SpinCpu.mode_eq_exclusive.mpr (Nat.pos_of_ne_zero hnew)

/-- **Sections under a spinlock are serial**, for up to 128 CPUs: in every reachable state the data
and what each CPU has computed from it are as if the sections had run one after another. -/
theorem spinlock_serial (hn : n ≤ 128) (x : δ × (Fin n → ρ)) {s : State (Fin n) (SpinState n) δ ρ}
    (hs : Reachable (guarded (guardSpin n) x) s) : (s.data, s.regs) = serial x s.sections :=
  (serialized_of_reachable (sound_guardSpin hn) hs).serial

def spinStart : State (Fin 2) (SpinState 2) Nat Nat :=
  ⟨⟨spinLockUnlocked, fun _ ↦ ⟨.idle, 0⟩⟩, 5, fun _ ↦ 0, []⟩

/-- CPU 1 holds the lock and has read what CPU 0 has stored before it. -/
def spinTurns : State (Fin 2) (SpinState 2) Nat Nat :=
  let s := spinStart
  let s := (guardSpin 2).enter 0 ⟨0#8, Function.update s.lock.proc 0 ⟨.idle, 1⟩⟩ s
  let s := s.access 0 (.write fun d r ↦ (d + 1, r))
  let s := (guardSpin 2).enter 0 ⟨1#8, Function.update s.lock.proc 0 ⟨.idle, 0⟩⟩ s
  let s := (guardSpin 2).enter 1 ⟨0#8, Function.update s.lock.proc 1 ⟨.idle, 1⟩⟩ s
  s.access 1 (.read fun d _ ↦ d)

theorem spinlock_serial_turns :
    (spinTurns.data, spinTurns.regs) = serial (5, fun _ ↦ 0) spinTurns.sections := by
  have hstart : Reachable (guarded (guardSpin 2) (5, fun _ ↦ 0)) spinStart := .init ⟨rfl, rfl, rfl⟩
  have henter := Reachable.step hstart (Or.inl ⟨0, _, ⟨_, _, ⟨.lock, rfl⟩, rfl⟩, rfl⟩)
  have hstore := Reachable.step henter (Or.inr ⟨0, .write fun d r ↦ (d + 1, r), rfl, rfl⟩)
  have hleave := Reachable.step hstore (Or.inl ⟨0, _, ⟨_, _, ⟨.unlock, rfl⟩, rfl⟩, rfl⟩)
  have hnext := Reachable.step hleave (Or.inl ⟨1, _, ⟨_, _, ⟨.lock, rfl⟩, rfl⟩, rfl⟩)
  have hload := Reachable.step hnext (Or.inr ⟨1, .read fun d _ ↦ d,
    show Mode.exclusive ≠ .free by decide, rfl⟩)
  exact spinlock_serial (by decide) _ hload

/-! ## Reader/writer locks -/

def Cpu.mode (c : Cpu) : Mode :=
  if 0 < c.writes then .exclusive else if 0 < c.reads then .shared else .free

def guardRw (n : Nat) : Lock (Fin n) (LockState n) :=
  .ofInterleave rwLockBias ⟨.idle, 0, 0⟩
    (fun lock c lock' c' ↦ ∃ op, cpuStep op lock c = some (lock', c')) Cpu.mode

theorem Cpu.mode_eq_exclusive {c : Cpu} : c.mode = .exclusive ↔ 0 < c.writes := by
  unfold Cpu.mode
  split_ifs with h
  · exact iff_of_true rfl h
  · exact iff_of_false (by decide) h
  · exact iff_of_false (by decide) h

theorem Cpu.mode_eq_free {c : Cpu} : c.mode = .free ↔ c.writes = 0 ∧ c.reads = 0 := by
  unfold Cpu.mode
  split_ifs with h h'
  · exact iff_of_false (by decide) (by omega)
  · exact iff_of_false (by decide) (by omega)
  · exact iff_of_true rfl (by omega)

theorem Cpu.mode_eq_shared {c : Cpu} : c.mode = .shared ↔ c.writes = 0 ∧ 0 < c.reads := by
  unfold Cpu.mode
  split_ifs with h h'
  · exact iff_of_false (by decide) (by omega)
  · exact iff_of_true rfl (by omega)
  · exact iff_of_false (by decide) (by omega)

-- A CPU that holds the lock takes no hold of the other kind: it would exclude itself.
theorem mode_turn {s : LockState n} (hs : LockSafe s) {i : Fin n} {lock : BitVec 32} {c : Cpu}
    (ht : LockSafe (⟨lock, Function.update s.proc i c⟩ : LockState n))
    (hholds : Holds lock (s.proc i) c) :
    c.mode = (s.proc i).mode ∨ (s.proc i).mode = .free ∨ c.mode = .free := by
  have hold : 0 < (s.proc i).writes → (s.proc i).reads = 0 := hs.no_reader i i
  have hnew : 0 < c.writes → c.reads = 0 := by
    have := ht.no_reader i i
    dsimp only at this
    rwa [Function.update_self] at this
  by_cases hwrites : 0 < (s.proc i).writes
  · have hreads := hold hwrites
    by_cases hwrites' : 0 < c.writes
    · left
      rw [Cpu.mode_eq_exclusive.mpr hwrites']
      exact (Cpu.mode_eq_exclusive.mpr hwrites).symm
    · right
      right
      apply Cpu.mode_eq_free.mpr
      cases hholds with
      | keep hr hw => omega
      | read hsign hidle hr hw => omega
      | write hzero hidle hw hr => omega
  · by_cases hreads : 0 < (s.proc i).reads
    · by_cases hreads' : 0 < c.reads
      · left
        rw [Cpu.mode_eq_shared.mpr ⟨by omega, hreads'⟩]
        exact (Cpu.mode_eq_shared.mpr ⟨by omega, hreads⟩).symm
      · right
        right
        apply Cpu.mode_eq_free.mpr
        cases hholds with
        | keep hr hw => omega
        | read hsign hidle hr hw => omega
        | write hzero hidle hw hr => omega
    · right
      left
      exact Cpu.mode_eq_free.mpr (by omega)

theorem sound_guardRw (hn : n ≤ 128) : (guardRw n).Sound := by
  apply Lock.sound_ofInterleave (lockInvariant hn)
  · rfl
  · intro s i j hs hi hj
    have hi := Cpu.mode_eq_exclusive.mp hi
    apply Cpu.mode_eq_free.mpr
    constructor
    · by_contra hwrites
      exact hj (hs.safe.one_writer j i (Nat.pos_of_ne_zero hwrites) hi)
    · exact hs.safe.no_reader i j hi
  · intro s i v c hs ht ⟨op, hop⟩
    exact mode_turn hs.safe ht.safe (cpuStep_spec hop).2

/-- **Sections under a reader/writer lock are serial**, for up to 128 CPUs, although the readers'
overlap. -/
theorem rwlock_serial (hn : n ≤ 128) (x : δ × (Fin n → ρ)) {s : State (Fin n) (LockState n) δ ρ}
    (hs : Reachable (guarded (guardRw n) x) s) : (s.data, s.regs) = serial x s.sections :=
  (serialized_of_reachable (sound_guardRw hn) hs).serial

def rwStart : State (Fin 2) (LockState 2) Nat Nat :=
  ⟨⟨rwLockBias, fun _ ↦ ⟨.idle, 0, 0⟩⟩, 5, fun _ ↦ 0, []⟩

/-- Both CPUs hold the lock for reading, and the one that took it last has read first. -/
def rwReaders : State (Fin 2) (LockState 2) Nat Nat :=
  let s := rwStart
  let s := (guardRw 2).enter 0
    ⟨rwLockBias - 1#32, Function.update s.lock.proc 0 ⟨.idle, 1, 0⟩⟩ s
  let s := (guardRw 2).enter 1
    ⟨rwLockBias - 1#32 - 1#32, Function.update s.lock.proc 1 ⟨.idle, 1, 0⟩⟩ s
  (s.access 1 (.read fun d _ ↦ d)).access 0 (.read fun d r ↦ d + r)

theorem rwlock_serial_readers :
    (rwReaders.data, rwReaders.regs) = serial (5, fun _ ↦ 0) rwReaders.sections := by
  have hstart : Reachable (guarded (guardRw 2) (5, fun _ ↦ 0)) rwStart := .init ⟨rfl, rfl, rfl⟩
  have hfirst := Reachable.step hstart (Or.inl ⟨0, _, ⟨_, _, ⟨.readLock, rfl⟩, rfl⟩, rfl⟩)
  have hboth := Reachable.step hfirst (Or.inl ⟨1, _, ⟨_, _, ⟨.readLock, rfl⟩, rfl⟩, rfl⟩)
  have hread := Reachable.step hboth (Or.inr ⟨1, .read fun d _ ↦ d,
    show Mode.shared ≠ .free by decide, rfl⟩)
  have hread' := Reachable.step hread (Or.inr ⟨0, .read fun d r ↦ d + r,
    show Mode.shared ≠ .free by decide, rfl⟩)
  exact rwlock_serial (by decide) _ hread'

end AphroditeOs
