import AphroditeOs.Lib.Transition

/-!
# Spinlocks (`include/asm/spinlock.h`, `kernel/spinlock.c`)

The instructions touch the low byte of `slock` only.  A step of a CPU is one of them together with
the jump on its flags.
-/

namespace AphroditeOs

/-- The lock byte of `SPIN_LOCK_UNLOCKED`. -/
def spinLockUnlocked : BitVec 8 := 1#8

/-- Where a CPU is, named after the instruction it executes next. -/
inductive SpinPc where
  | idle
  -- `1:` and `2:` of `spin_lock_string`
  | decb
  | cmpb
  deriving DecidableEq, Repr

/-- A CPU, and how many times it is in the critical section. -/
structure SpinCpu where
  pc : SpinPc
  held : Nat
  deriving DecidableEq, Repr

inductive SpinOp where
  | lock
  | trylock
  | unlock
  deriving DecidableEq, Repr

/-- `lock ; decb`, then `jns 3f`. -/
def decbLock (slock : BitVec 8) (c : SpinCpu) : BitVec 8 × SpinCpu :=
  let slock := slock - 1#8
  (slock, if slock.msb then { c with pc := .cmpb } else ⟨.idle, c.held + 1⟩)

/-- The first instruction of an operation, by a CPU that is in none. -/
def startSpin (op : SpinOp) (slock : BitVec 8) (c : SpinCpu) : Option (BitVec 8 × SpinCpu) :=
  match op with
  | .lock => some (decbLock slock c)
  | .trylock =>
    -- `xchgb` with 0; `oldval > 0`, as a `char`
    some (0#8, if 0 < slock.toInt then { c with held := c.held + 1 } else c)
  | .unlock => if 0 < c.held then some (1#8, { c with held := c.held - 1 }) else none

/-- One instruction; `op` is what an idle CPU begins. -/
def spinStep (op : SpinOp) (slock : BitVec 8) (c : SpinCpu) : Option (BitVec 8 × SpinCpu) :=
  match c.pc with
  | .idle => startSpin op slock c
  | .decb => some (decbLock slock c)
  -- `jle 2b`, else `jmp 1b`
  | .cmpb => some (slock, if slock.toInt ≤ 0 then c else { c with pc := .decb })

abbrev SpinState (n : Nat) := Transition.Shared (Fin n) (BitVec 8) SpinCpu

/-- `n` CPUs on one lock, from `SPIN_LOCK_UNLOCKED` on. -/
def spinlock (n : Nat) : Transition.System (SpinState n) :=
  Transition.interleave spinLockUnlocked ⟨.idle, 0⟩
    fun slock c slock' c' ↦ ∃ op, spinStep op slock c = some (slock', c')

structure SpinSafe {n : Nat} (s : SpinState n) : Prop where
  held_le : ∀ i, (s.proc i).held ≤ 1
  one_holder : ∀ i j, 0 < (s.proc i).held → 0 < (s.proc j).held → i = j
  locked_iff : s.value.toInt ≤ 0 ↔ ∃ i, 0 < (s.proc i).held
  -- whoever may execute `decb` next takes one off the signed byte
  no_wrap : ∀ i, (s.proc i).pc ≠ .cmpb → (s.value - 1#8).toInt = s.value.toInt - 1

/-! ## What one instruction does -/

def SpinCpu.polls (c : SpinCpu) : Nat := if c.pc = .cmpb then 1 else 0

theorem SpinCpu.polls_le_one (c : SpinCpu) : c.polls ≤ 1 := by
  unfold SpinCpu.polls
  split
  · exact le_rfl
  · exact Nat.zero_le _

/-- What one instruction can do, by the way it changes the byte. -/
inductive SpinEffect (slock : BitVec 8) (c : SpinCpu) (slock' : BitVec 8) (c' : SpinCpu) : Prop where
  | dec : c.pc ≠ .cmpb → slock' = slock - 1#8 →
      (if slock'.toInt < 0 then c'.polls = 1 ∧ c'.held = c.held
        else c'.polls = 0 ∧ c'.held = c.held + 1) → SpinEffect slock c slock' c'
  | zero : slock' = 0#8 → c'.polls = c.polls →
      c'.held = (if 0 < slock.toInt then c.held + 1 else c.held) → SpinEffect slock c slock' c'
  | release : 0 < c.held → slock' = 1#8 → c'.polls = c.polls → c'.held + 1 = c.held →
      SpinEffect slock c slock' c'
  | poll : slock' = slock → c'.held = c.held →
      (slock.toInt ≤ 0 → c'.polls = c.polls) → SpinEffect slock c slock' c'

section

variable {slock slock' : BitVec 8} {c c' : SpinCpu}

theorem decbLock_spec (hpc : c.pc ≠ .cmpb) (h : decbLock slock c = (slock', c')) :
    SpinEffect slock c slock' c' := by
  obtain ⟨rfl, rfl⟩ := Prod.mk.inj h
  apply SpinEffect.dec hpc rfl
  by_cases hsign : (slock - 1#8).toInt < 0
  · rw [if_pos hsign, if_pos (by rw [BitVec.msb_eq_toInt]; exact decide_eq_true hsign)]
    exact ⟨rfl, rfl⟩
  · rw [if_neg hsign, if_neg (by rw [BitVec.msb_eq_toInt]; simpa using hsign)]
    exact ⟨rfl, rfl⟩

theorem startSpin_spec {op : SpinOp} (hidle : c.pc = .idle)
    (h : startSpin op slock c = some (slock', c')) : SpinEffect slock c slock' c' := by
  obtain ⟨pc, held⟩ := c
  subst hidle
  cases op with
  | lock => exact decbLock_spec (by simp) (Option.some.inj h)
  | trylock =>
    obtain ⟨rfl, rfl⟩ := Prod.mk.inj (Option.some.inj h)
    by_cases hfree : 0 < slock.toInt
    · rw [if_pos hfree]
      exact .zero rfl rfl (by rw [if_pos hfree])
    · rw [if_neg hfree]
      exact .zero rfl rfl (by rw [if_neg hfree])
  | unlock =>
    by_cases hheld : 0 < held
    · rw [startSpin, if_pos hheld] at h
      obtain ⟨rfl, rfl⟩ := Prod.mk.inj (Option.some.inj h)
      exact .release hheld rfl rfl (Nat.sub_add_cancel hheld)
    · rw [startSpin, if_neg hheld] at h
      contradiction

theorem spinStep_spec {op : SpinOp} (h : spinStep op slock c = some (slock', c')) :
    SpinEffect slock c slock' c' := by
  obtain ⟨pc, held⟩ := c
  cases pc with
  | idle => exact startSpin_spec rfl h
  | decb => exact decbLock_spec (by simp) (Option.some.inj h)
  | cmpb =>
    obtain ⟨rfl, rfl⟩ := Prod.mk.inj (Option.some.inj h)
    by_cases hlocked : slock.toInt ≤ 0
    · rw [if_pos hlocked]
      exact .poll rfl rfl fun _ ↦ rfl
    · rw [if_neg hlocked]
      exact .poll rfl rfl fun h ↦ absurd h hlocked

end

/-! ## All CPUs -/

/-- A CPU whose decrement failed polls until the lock is free, so a held lock has been decremented
below zero by at most the CPUs that poll. -/
structure SpinInv {n : Nat} (s : SpinState n) : Prop where
  locked : s.value.toInt = 1 ∧ Transition.total SpinCpu.held s.proc = 0 ∨
    s.value.toInt ≤ 0 ∧ Transition.total SpinCpu.held s.proc = 1
  low : -(Transition.total SpinCpu.polls s.proc : Int) ≤ s.value.toInt

section

variable {n : Nat}

-- While one CPU is not polling, at most the others are.
theorem total_polls_lt (proc : Fin n → SpinCpu) {i : Fin n} (hi : (proc i).pc ≠ .cmpb) :
    Transition.total SpinCpu.polls proc + 1 ≤ n := by
  have hupdate := Transition.total_update SpinCpu.polls proc i ⟨.cmpb, 0⟩
  have hcard : Transition.total SpinCpu.polls (Function.update proc i ⟨.cmpb, 0⟩) ≤ _ :=
    Transition.total_le_card fun j ↦ SpinCpu.polls_le_one _
  rw [show (proc i).polls = 0 from if_neg hi] at hupdate
  rw [Fintype.card_fin] at hcard
  have hone : (⟨.cmpb, 0⟩ : SpinCpu).polls = 1 := rfl
  omega

theorem toInt_sub_one {slock : BitVec 8} (h : -128 < slock.toInt) :
    (slock - 1#8).toInt = slock.toInt - 1 := by
  have hlt := BitVec.toInt_lt (x := slock)
  rw [BitVec.toInt_sub, show (1#8).toInt = 1 from rfl]
  exact Int.bmod_eq_of_le (by omega) (by omega)

theorem spinInv_init : SpinInv (⟨spinLockUnlocked, fun _ ↦ ⟨.idle, 0⟩⟩ : SpinState n) := by
  have hheld : Transition.total SpinCpu.held (fun _ : Fin n ↦ (⟨.idle, 0⟩ : SpinCpu)) = 0 :=
    Transition.total_eq_zero fun _ ↦ rfl
  refine ⟨Or.inl ⟨rfl, hheld⟩, ?_⟩
  show -(_ : Int) ≤ 1
  omega

theorem SpinInv.neg_lt (hn : n ≤ 128) {s : SpinState n} (hs : SpinInv s) {i : Fin n}
    (hi : (s.proc i).pc ≠ .cmpb) : -128 < s.value.toInt := by
  have hothers := total_polls_lt s.proc hi
  have hlow := hs.low
  omega

theorem SpinInv.step (hn : n ≤ 128) {s : SpinState n} (hs : SpinInv s) (i : Fin n)
    {slock : BitVec 8} {c : SpinCpu} (h : SpinEffect s.value (s.proc i) slock c) :
    SpinInv (⟨slock, Function.update s.proc i c⟩ : SpinState n) := by
  have hheld := Transition.total_update SpinCpu.held s.proc i c
  have hpolls := Transition.total_update SpinCpu.polls s.proc i c
  have hlow := hs.low
  have hlocked := hs.locked
  cases h with
  | dec hpc hslock hjump =>
    have hvalue := toInt_sub_one (hs.neg_lt hn hpc)
    rw [← hslock] at hvalue
    have hnot : (s.proc i).polls = 0 := if_neg hpc
    by_cases hsign : slock.toInt < 0
    · -- one more CPU polls
      rw [if_pos hsign] at hjump
      exact ⟨by dsimp only; omega, by dsimp only; omega⟩
    · -- the byte was 1, so nobody held the lock
      rw [if_neg hsign] at hjump
      exact ⟨by dsimp only; omega, by dsimp only; omega⟩
  | zero hslock hsame hnew =>
    -- a failed attempt forgets the waiters, which only raises the byte
    have hvalue : slock.toInt = 0 := by rw [hslock]; rfl
    by_cases hfree : 0 < s.value.toInt
    · rw [if_pos hfree] at hnew
      exact ⟨by dsimp only; omega, by dsimp only; omega⟩
    · rw [if_neg hfree] at hnew
      exact ⟨by dsimp only; omega, by dsimp only; omega⟩
  | release hholds hslock hsame hnew =>
    have hvalue : slock.toInt = 1 := by rw [hslock]; rfl
    have hmine := Transition.le_total SpinCpu.held s.proc i
    exact ⟨by dsimp only; omega, by dsimp only; omega⟩
  | poll hslock hsame hstay =>
    -- a CPU leaves the loop only when it sees a free lock
    rw [hslock]
    refine ⟨by dsimp only; omega, ?_⟩
    dsimp only
    by_cases hlocked : s.value.toInt ≤ 0
    · have := hstay hlocked
      omega
    · omega

theorem SpinInv.safe (hn : n ≤ 128) {s : SpinState n} (hs : SpinInv s) : SpinSafe s := by
  have hone : Transition.total SpinCpu.held s.proc ≤ 1 := by
    have := hs.locked
    omega
  constructor
  · intro i
    exact (Transition.le_total SpinCpu.held s.proc i).trans hone
  · intro i j hi hj
    by_contra hne
    have := Transition.add_le_total SpinCpu.held s.proc hne
    omega
  · constructor
    · intro hvalue
      by_contra hnone
      have hzero : Transition.total SpinCpu.held s.proc = 0 := by
        apply Transition.total_eq_zero
        intro i
        by_contra hi
        exact hnone ⟨i, Nat.pos_of_ne_zero hi⟩
      have := hs.locked
      omega
    · intro ⟨i, hi⟩
      have hmine := Transition.le_total SpinCpu.held s.proc i
      have := hs.locked
      omega
  · intro i hi
    exact toInt_sub_one (hs.neg_lt hn hi)

/-- **Mutual exclusion**, for up to 128 CPUs and any interleaving of their instructions. -/
theorem spinSafe_of_reachable (hn : n ≤ 128) {s : SpinState n}
    (hs : Transition.Reachable (spinlock n) s) : SpinSafe s := by
  have hinv : Transition.Invariant (spinlock n) SpinInv := by
    constructor
    · intro s hs
      rw [hs]
      exact spinInv_init
    · intro s t hs hstep
      obtain ⟨i, slock, c, ⟨op, hop⟩, rfl⟩ := hstep
      exact hs.step hn i (spinStep_spec hop)
  exact (hinv.of_reachable hs).safe hn

end

/-- Two CPUs, one of which holds the lock while the other polls. -/
theorem spinSafe_two_cpus :
    SpinSafe (⟨spinLockUnlocked - 1#8 - 1#8, Function.update (Function.update
      (fun _ ↦ ⟨.idle, 0⟩) 0 ⟨.idle, 1⟩) 1 ⟨.cmpb, 0⟩⟩ : SpinState 2) :=
  spinSafe_of_reachable (by decide) (.step (.step (.init rfl)
    ⟨0, _, _, ⟨.lock, rfl⟩, rfl⟩) ⟨1, _, _, ⟨.lock, rfl⟩, rfl⟩)

end AphroditeOs
