import Mathlib

/-!
# The interrupt controllers (`kernel/irq.c`, `kernel/irq.cc`)

The two files have the same driver for the cascaded 8259A pair; they differ in what follows a
spurious interrupt, and in `do_IRQ`.  Words are `unsigned int`, lines are numbers below `NR_IRQS`.
-/

namespace AphroditeOs

/-! ## The chips -/

structure Pic where
  isr : BitVec 8
  irr : BitVec 8
  -- the mask byte last written
  imr : BitVec 8
  -- the register that the next read of the command port returns
  readIsr : Bool
  deriving DecidableEq, Repr

/-- A write to the command port: the two OCW3 that the driver sends, ICW1 (bit 4), and a specific end
of interrupt. -/
def Pic.command (value : BitVec 8) (p : Pic) : Pic :=
  if value = 0x0B#8 then { p with readIsr := true }
  else if value = 0x0A#8 then { p with readIsr := false }
  -- the edge sense circuit is reset, and the request register selected
  else if value.getLsbD 4 then { p with irr := 0#8, readIsr := false }
  else if value &&& 0xF8#8 = 0x60#8 then
    { p with isr := p.isr &&& ~~~(1#8 <<< (value &&& 7#8).toNat) }
  else p

/-- The interrupt of an input of the chip is delivered. -/
def Pic.deliver (input : Nat) (p : Pic) : Pic :=
  { p with isr := p.isr ||| 1#8 <<< input, irr := p.irr &&& ~~~(1#8 <<< input) }

/-! ## The driver -/

inductive HwIrqController where
  | i8259AIrqType
  | noIrqType
  deriving DecidableEq, Repr

structure IrqAction where
  handler : BitVec 32
  flags : BitVec 32
  devId : BitVec 32
  deriving DecidableEq, Repr

/-- `action` is the chain along the `next` pointers, empty for `NULL`. -/
structure IrqDesc where
  status : BitVec 32
  handler : HwIrqController
  action : List IrqAction
  deriving DecidableEq, Repr

structure IrqState where
  master : Pic
  slave : Pic
  cachedIrqMask : BitVec 32
  spuriousIrqMask : BitVec 32
  irqErrCount : BitVec 32
  irqDescTable : Nat → IrqDesc

def irqInprogress : BitVec 32 := 1#32

def irqDisabled : BitVec 32 := 2#32

def irqPending : BitVec 32 := 4#32

def irqReplay : BitVec 32 := 8#32

/-- Which of the two files a function is from. -/
inductive IrqFile where
  | c
  | cc
  deriving DecidableEq, Repr

namespace IrqState

def cached21 (s : IrqState) : BitVec 8 := s.cachedIrqMask.extractLsb' 0 8

def cachedA1 (s : IrqState) : BitVec 8 := s.cachedIrqMask.extractLsb' 8 8

def outb (port : BitVec 16) (value : BitVec 8) (s : IrqState) : IrqState :=
  if port = 0x20#16 then { s with master := s.master.command value }
  else if port = 0x21#16 then { s with master := { s.master with imr := value } }
  else if port = 0xA0#16 then { s with slave := s.slave.command value }
  else if port = 0xA1#16 then { s with slave := { s.slave with imr := value } }
  else s

def inb (port : BitVec 16) (s : IrqState) : BitVec 8 :=
  if port = 0x20#16 then if s.master.readIsr then s.master.isr else s.master.irr
  else if port = 0xA0#16 then if s.slave.readIsr then s.slave.isr else s.slave.irr
  else 0#8

/-- The interrupt of a line is delivered to the processor. -/
def deliver (irq : Nat) (s : IrqState) : IrqState :=
  if irq < 8 then { s with master := s.master.deliver irq }
  else { s with slave := s.slave.deliver (irq - 8), master := s.master.deliver 2 }

/-- The write of the mask byte that a line is in. -/
def writeMask (irq : Nat) (s : IrqState) : IrqState :=
  if irq &&& 8 ≠ 0 then s.outb 0xA1#16 s.cachedA1 else s.outb 0x21#16 s.cached21

def enable8259AIrq (irq : Nat) (s : IrqState) : IrqState :=
  { s with cachedIrqMask := s.cachedIrqMask &&& ~~~(1#32 <<< irq) }.writeMask irq

def end8259AIrq (irq : Nat) (s : IrqState) : IrqState :=
  if (s.irqDescTable irq).status &&& (irqDisabled ||| irqInprogress) = 0#32 then
    s.enable8259AIrq irq
  else s

def i8259AIrqReal (irq : Nat) (s : IrqState) : BitVec 32 × IrqState :=
  let irqmask := 1#32 <<< irq
  if irq < 8 then
    let s := s.outb 0x20#16 0x0B#8
    ((s.inb 0x20#16).setWidth 32 &&& irqmask, s.outb 0x20#16 0x0A#8)
  else
    let s := s.outb 0xA0#16 0x0B#8
    ((s.inb 0xA0#16).setWidth 32 &&& irqmask >>> 8, s.outb 0xA0#16 0x0A#8)

/-- `handle_real_irq:` -/
def handleRealIrq (irq : Nat) (s : IrqState) : IrqState :=
  let s := s.writeMask irq
  if irq &&& 8 ≠ 0 then
    (s.outb 0xA0#16 (BitVec.ofNat 8 (0x60 + (irq &&& 7)))).outb 0xA0#16 0x62#8
  else
    s.outb 0x20#16 (BitVec.ofNat 8 (0x60 + irq))

/-- `spurious_8259A_irq:` -/
def spurious8259AIrq (file : IrqFile) (irq : Nat) (s : IrqState) : IrqState :=
  let (isrVal, s) := s.i8259AIrqReal irq
  if isrVal ≠ 0#32 then s.handleRealIrq irq
  else
    let s := { s with
      spuriousIrqMask := s.spuriousIrqMask ||| 1#32 <<< irq
      irqErrCount := s.irqErrCount + 1#32 }
    match file with
    -- `goto handle_real_irq`
    | .c => s.handleRealIrq irq
    | .cc => s

def maskAndAck8259AIrq (file : IrqFile) (irq : Nat) (s : IrqState) : IrqState :=
  let irqmask := 1#32 <<< irq
  if s.cachedIrqMask &&& irqmask ≠ 0#32 then s.spurious8259AIrq file irq
  else { s with cachedIrqMask := s.cachedIrqMask ||| irqmask }.handleRealIrq irq

/-- The state in which `init_ISA_irqs` leaves the driver. -/
def initIsaIrqs : IrqState where
  master := ⟨0#8, 0#8, 0xFF#8, false⟩
  slave := ⟨0#8, 0#8, 0xFF#8, false⟩
  cachedIrqMask := 0xFFFF#32
  spuriousIrqMask := 0#32
  irqErrCount := 0#32
  irqDescTable irq :=
    { status := irqDisabled
      handler := if irq < 16 then .i8259AIrqType else .noIrqType
      action := [] }

/-- Drivers have since set up the descriptors and unmasked their lines. -/
def withDrivers (status : Nat → BitVec 32) (action : Nat → List IrqAction) (mask : BitVec 32) :
    IrqState :=
  { initIsaIrqs with
    cachedIrqMask := mask
    master := { initIsaIrqs.master with imr := mask.extractLsb' 0 8 }
    slave := { initIsaIrqs.slave with imr := mask.extractLsb' 8 8 }
    irqDescTable := fun irq ↦
      { initIsaIrqs.irqDescTable irq with status := status irq, action := action irq } }

/-! ## Mask bits -/

theorem getLsbD_and_not_shiftLeft {irq : Nat} (hirq : irq < 16) (mask : BitVec 32) (i : Nat) :
    (mask &&& ~~~(1#32 <<< irq)).getLsbD i = (mask.getLsbD i && decide (i ≠ irq)) := by
  by_cases hi : i < 32
  · rw [← BitVec.twoPow_eq, BitVec.getLsbD_and, BitVec.getLsbD_not, BitVec.getLsbD_twoPow]
    simp only [hi, show irq < 32 by omega, decide_true, Bool.true_and, ne_eq, decide_not,
      eq_comm (a := irq)]
  · rw [BitVec.getLsbD_of_ge _ _ (by omega), BitVec.getLsbD_of_ge _ _ (by omega), Bool.false_and]

theorem getLsbD_or_shiftLeft {irq : Nat} (hirq : irq < 16) (mask : BitVec 32) (i : Nat) :
    (mask ||| 1#32 <<< irq).getLsbD i = (mask.getLsbD i || decide (i = irq)) := by
  rw [← BitVec.twoPow_eq, BitVec.getLsbD_or, BitVec.getLsbD_twoPow]
  simp only [show irq < 32 by omega, decide_true, Bool.true_and, eq_comm (a := irq)]

theorem and_shiftLeft_eq_zero_iff {irq : Nat} (hirq : irq < 16) (mask : BitVec 32) :
    mask &&& 1#32 <<< irq = 0#32 ↔ mask.getLsbD irq = false := by
  rw [← BitVec.twoPow_eq, BitVec.and_twoPow]
  by_cases hbit : mask.getLsbD irq = true
  · have hne : BitVec.twoPow 32 irq ≠ 0#32 := by
      intro hzero
      have hone := congrArg (fun x : BitVec 32 ↦ x.getLsbD irq) hzero
      simp [show irq < 32 by omega] at hone
    rw [if_pos hbit, hbit]
    exact iff_of_false hne (by decide)
  · rw [if_neg hbit]
    exact iff_of_true rfl (Bool.eq_false_iff.mpr hbit)

theorem and_eight_ne_zero_iff {irq : Nat} (hirq : irq < 16) : irq &&& 8 ≠ 0 ↔ 8 ≤ irq := by
  revert irq
  decide

/-- The bit of a line in the mask that its chip has. -/
def picMasked (irq : Nat) (s : IrqState) : Bool :=
  if irq < 8 then s.master.imr.getLsbD irq else s.slave.imr.getLsbD (irq - 8)

/-- The chips have the mask that the driver caches. -/
structure Synced (s : IrqState) : Prop where
  master : s.master.imr = s.cached21
  slave : s.slave.imr = s.cachedA1

variable {s : IrqState} {irq : Nat}

theorem Synced.picMasked_eq (hs : Synced s) (hirq : irq < 16) :
    s.picMasked irq = s.cachedIrqMask.getLsbD irq := by
  unfold picMasked
  by_cases hlow : irq < 8
  · rw [if_pos hlow, hs.master, cached21, BitVec.getLsbD_extractLsb', Nat.zero_add]
    simp [hlow]
  · rw [if_neg hlow, hs.slave, cachedA1, BitVec.getLsbD_extractLsb',
      Nat.add_sub_cancel' (by omega)]
    simp [show irq - 8 < 8 by omega]

/-! ## What the driver does -/

theorem command_eoi {n : Nat} (hn : n < 8) (p : Pic) :
    p.command (BitVec.ofNat 8 (0x60 + n)) = { p with isr := p.isr &&& ~~~(1#8 <<< n) } := by
  interval_cases n <;> rfl

@[simp]
theorem writeMask_low (h : irq < 8) (s : IrqState) :
    s.writeMask irq = { s with master := { s.master with imr := s.cached21 } } := by
  rw [writeMask, if_neg (by rw [and_eight_ne_zero_iff (by omega)]; omega)]
  rfl

theorem writeMask_high (h : 8 ≤ irq) (hirq : irq < 16) (s : IrqState) :
    s.writeMask irq = { s with slave := { s.slave with imr := s.cachedA1 } } := by
  rw [writeMask, if_pos (by rw [and_eight_ne_zero_iff hirq]; exact h)]
  rfl

theorem handleRealIrq_low (h : irq < 8) (s : IrqState) :
    s.handleRealIrq irq = { s with master := { s.master with
      isr := s.master.isr &&& ~~~(1#8 <<< irq), imr := s.cached21 } } := by
  rw [handleRealIrq, if_neg (by rw [and_eight_ne_zero_iff (by omega)]; omega), writeMask_low h]
  show { s with master := Pic.command _ _ } = _
  rw [command_eoi h]

theorem handleRealIrq_high (h : 8 ≤ irq) (hirq : irq < 16) (s : IrqState) :
    s.handleRealIrq irq = { s with slave := { s.slave with
      isr := s.slave.isr &&& ~~~(1#8 <<< (irq - 8)) &&& ~~~4#8, imr := s.cachedA1 } } := by
  have hlow : irq &&& 7 = irq - 8 := by
    revert irq
    decide
  rw [handleRealIrq, if_pos (by rw [and_eight_ne_zero_iff hirq]; exact h), writeMask_high h hirq,
    hlow]
  show { s with slave := Pic.command _ (Pic.command _ _) } = _
  rw [command_eoi (by omega)]
  rfl

/-- From `s` to `t` the driver has written a data port with the byte that it caches or left the port
and its byte alone, and has left the command ports at the request registers or as they were. -/
structure Tracks (s t : IrqState) : Prop where
  master : t.master.imr = t.cached21 ∨ t.master.imr = s.master.imr ∧ t.cached21 = s.cached21
  slave : t.slave.imr = t.cachedA1 ∨ t.slave.imr = s.slave.imr ∧ t.cachedA1 = s.cachedA1
  masterRead : t.master.readIsr = false ∨ t.master.readIsr = s.master.readIsr
  slaveRead : t.slave.readIsr = false ∨ t.slave.readIsr = s.slave.readIsr

theorem Tracks.synced {t : IrqState} (h : Tracks s t) (hs : Synced s) : Synced t := by
  constructor
  · rcases h.master with heq | ⟨himr, hcached⟩
    · exact heq
    · rw [himr, hcached, hs.master]
  · rcases h.slave with heq | ⟨himr, hcached⟩
    · exact heq
    · rw [himr, hcached, hs.slave]

-- Only the bit of the line may have changed in the cached mask.
theorem cachedA1_eq {mask : BitVec 32} (hlow : irq < 8)
    (hmask : ∀ i, i ≠ irq → mask.getLsbD i = s.cachedIrqMask.getLsbD i) :
    mask.extractLsb' 8 8 = s.cachedA1 := by
  apply BitVec.eq_of_getLsbD_eq
  intro i hi
  simp only [cachedA1, BitVec.getLsbD_extractLsb', hi, decide_true, Bool.true_and]
  exact hmask _ (by omega)

theorem cached21_eq {mask : BitVec 32} (hhigh : 8 ≤ irq)
    (hmask : ∀ i, i ≠ irq → mask.getLsbD i = s.cachedIrqMask.getLsbD i) :
    mask.extractLsb' 0 8 = s.cached21 := by
  apply BitVec.eq_of_getLsbD_eq
  intro i hi
  simp only [cached21, BitVec.getLsbD_extractLsb', hi, decide_true, Bool.true_and]
  exact hmask _ (by omega)

theorem tracks_writeMask (hirq : irq < 16) {mask : BitVec 32}
    (hmask : ∀ i, i ≠ irq → mask.getLsbD i = s.cachedIrqMask.getLsbD i) :
    Tracks s ({ s with cachedIrqMask := mask }.writeMask irq) := by
  by_cases hlow : irq < 8
  · rw [writeMask_low hlow]
    exact ⟨Or.inl rfl, Or.inr ⟨rfl, cachedA1_eq hlow hmask⟩, Or.inr rfl, Or.inr rfl⟩
  · have hhigh := Nat.le_of_not_lt hlow
    rw [writeMask_high hhigh hirq]
    exact ⟨Or.inr ⟨rfl, cached21_eq hhigh hmask⟩, Or.inl rfl, Or.inr rfl, Or.inr rfl⟩

theorem tracks_handleRealIrq (hirq : irq < 16) {mask : BitVec 32}
    (hmask : ∀ i, i ≠ irq → mask.getLsbD i = s.cachedIrqMask.getLsbD i) :
    Tracks s ({ s with cachedIrqMask := mask }.handleRealIrq irq) := by
  by_cases hlow : irq < 8
  · rw [handleRealIrq_low hlow]
    exact ⟨Or.inl rfl, Or.inr ⟨rfl, cachedA1_eq hlow hmask⟩, Or.inr rfl, Or.inr rfl⟩
  · have hhigh := Nat.le_of_not_lt hlow
    rw [handleRealIrq_high hhigh hirq]
    exact ⟨Or.inr ⟨rfl, cached21_eq hhigh hmask⟩, Or.inl rfl, Or.inr rfl, Or.inr rfl⟩

theorem cachedIrqMask_deliver : (s.deliver irq).cachedIrqMask = s.cachedIrqMask := by
  unfold deliver
  split_ifs <;> rfl

theorem irqDescTable_deliver : (s.deliver irq).irqDescTable = s.irqDescTable := by
  unfold deliver
  split_ifs <;> rfl

theorem Synced.deliver (hs : Synced s) : Synced (s.deliver irq) := by
  unfold IrqState.deliver
  split_ifs
  · exact ⟨hs.master, hs.slave⟩
  · exact ⟨hs.master, hs.slave⟩

/-- `t` has the mask bit of a line set to `b`, and all other lines as `s` has them. -/
structure SetsMask (irq : Nat) (b : Bool) (s t : IrqState) : Prop where
  bit : t.cachedIrqMask.getLsbD irq = b
  others : ∀ i, i ≠ irq → t.cachedIrqMask.getLsbD i = s.cachedIrqMask.getLsbD i
  table : t.irqDescTable = s.irqDescTable
  synced : Synced s → Synced t

theorem SetsMask.picMasked {b : Bool} {t : IrqState} (h : SetsMask irq b s t) (hs : Synced s)
    (hirq : irq < 16) : t.picMasked irq = b :=
  ((h.synced hs).picMasked_eq hirq).trans h.bit

theorem cachedIrqMask_writeMask (irq : Nat) (s : IrqState) :
    (s.writeMask irq).cachedIrqMask = s.cachedIrqMask := by
  unfold writeMask
  split_ifs <;> rfl

theorem irqDescTable_writeMask (irq : Nat) (s : IrqState) :
    (s.writeMask irq).irqDescTable = s.irqDescTable := by
  unfold writeMask
  split_ifs <;> rfl

theorem cachedIrqMask_handleRealIrq :
    (s.handleRealIrq irq).cachedIrqMask = s.cachedIrqMask := by
  refine Eq.trans ?_ (cachedIrqMask_writeMask irq s)
  unfold handleRealIrq
  split_ifs <;> rfl

theorem irqDescTable_handleRealIrq : (s.handleRealIrq irq).irqDescTable = s.irqDescTable := by
  refine Eq.trans ?_ (irqDescTable_writeMask irq s)
  unfold handleRealIrq
  split_ifs <;> rfl

theorem enable8259AIrq_sets (hirq : irq < 16) : SetsMask irq false s (s.enable8259AIrq irq) := by
  have hbit := getLsbD_and_not_shiftLeft hirq s.cachedIrqMask
  constructor
  · rw [enable8259AIrq, cachedIrqMask_writeMask]
    exact (hbit irq).trans (by simp)
  · intro i hi
    rw [enable8259AIrq, cachedIrqMask_writeMask]
    exact (hbit i).trans (by simp [hi])
  · exact irqDescTable_writeMask _ _
  · intro hs
    exact (tracks_writeMask hirq fun i hi ↦ (hbit i).trans (by simp [hi])).synced hs

theorem end8259AIrq_sets (hirq : irq < 16)
    (h : (s.irqDescTable irq).status &&& (irqDisabled ||| irqInprogress) = 0#32) :
    SetsMask irq false s (s.end8259AIrq irq) := by
  rw [end8259AIrq, if_pos h]
  exact enable8259AIrq_sets hirq

theorem i8259AIrqReal_snd : (s.i8259AIrqReal irq).2 =
    if irq < 8 then { s with master := { s.master with readIsr := false } }
    else { s with slave := { s.slave with readIsr := false } } := by
  unfold i8259AIrqReal
  split_ifs <;> rfl

/-- A spurious interrupt is counted and acknowledged like a real one, or only counted. -/
theorem spurious8259AIrq_cases (file : IrqFile) (irq : Nat) (s : IrqState) :
    ∃ spurious err, let t := { (s.i8259AIrqReal irq).2 with
        spuriousIrqMask := spurious, irqErrCount := err }
      s.spurious8259AIrq file irq = t.handleRealIrq irq ∨ s.spurious8259AIrq file irq = t := by
  unfold spurious8259AIrq
  dsimp only
  split_ifs
  · exact ⟨_, _, Or.inl rfl⟩
  · cases file with
    | c => exact ⟨_, _, Or.inl rfl⟩
    | cc => exact ⟨_, _, Or.inr rfl⟩

/-- Reading the in-service register leaves the request register selected. -/
theorem tracks_i8259AIrqReal (spurious err : BitVec 32) :
    Tracks s { (s.i8259AIrqReal irq).2 with spuriousIrqMask := spurious, irqErrCount := err } := by
  rw [i8259AIrqReal_snd]
  split_ifs
  · exact ⟨Or.inr ⟨rfl, rfl⟩, Or.inr ⟨rfl, rfl⟩, Or.inl rfl, Or.inr rfl⟩
  · exact ⟨Or.inr ⟨rfl, rfl⟩, Or.inr ⟨rfl, rfl⟩, Or.inr rfl, Or.inl rfl⟩

theorem Tracks.trans {t u : IrqState} (h : Tracks s t) (h' : Tracks t u) : Tracks s u := by
  constructor
  · rcases h'.master with heq | ⟨himr, hcached⟩
    · exact Or.inl heq
    · rw [himr, hcached]
      exact h.master
  · rcases h'.slave with heq | ⟨himr, hcached⟩
    · exact Or.inl heq
    · rw [himr, hcached]
      exact h.slave
  · rcases h'.masterRead with heq | heq
    · exact Or.inl heq
    · rw [heq]
      exact h.masterRead
  · rcases h'.slaveRead with heq | heq
    · exact Or.inl heq
    · rw [heq]
      exact h.slaveRead

theorem tracks_spurious8259AIrq (file : IrqFile) (hirq : irq < 16) :
    Tracks s (s.spurious8259AIrq file irq) := by
  obtain ⟨spurious, err, heq | heq⟩ := spurious8259AIrq_cases file irq s
  · rw [heq]
    exact (tracks_i8259AIrqReal spurious err).trans (tracks_handleRealIrq hirq fun _ _ ↦ rfl)
  · rw [heq]
    exact tracks_i8259AIrqReal spurious err

theorem cachedIrqMask_spurious8259AIrq (file : IrqFile) (irq : Nat) (s : IrqState) :
    (s.spurious8259AIrq file irq).cachedIrqMask = s.cachedIrqMask ∧
      (s.spurious8259AIrq file irq).irqDescTable = s.irqDescTable := by
  have hread : (s.i8259AIrqReal irq).2.cachedIrqMask = s.cachedIrqMask ∧
      (s.i8259AIrqReal irq).2.irqDescTable = s.irqDescTable := by
    rw [i8259AIrqReal_snd]
    split_ifs
    · exact ⟨rfl, rfl⟩
    · exact ⟨rfl, rfl⟩
  obtain ⟨spurious, err, heq | heq⟩ := spurious8259AIrq_cases file irq s
  · rw [heq, cachedIrqMask_handleRealIrq, irqDescTable_handleRealIrq]
    exact hread
  · rw [heq]
    exact hread

-- A masked line stays masked, whether or not its interrupt is taken for a real one.
theorem spurious8259AIrq_sets (file : IrqFile) (hirq : irq < 16)
    (hmasked : s.cachedIrqMask.getLsbD irq = true) :
    SetsMask irq true s (s.spurious8259AIrq file irq) := by
  obtain ⟨hmask, htable⟩ := cachedIrqMask_spurious8259AIrq file irq s
  exact ⟨by rw [hmask, hmasked], fun i _ ↦ by rw [hmask], htable,
    (tracks_spurious8259AIrq file hirq).synced⟩

theorem maskAndAck8259AIrq_of_unmasked (file : IrqFile) (hirq : irq < 16)
    (h : s.cachedIrqMask.getLsbD irq = false) : s.maskAndAck8259AIrq file irq =
      { s with cachedIrqMask := s.cachedIrqMask ||| 1#32 <<< irq }.handleRealIrq irq := by
  rw [maskAndAck8259AIrq, if_neg (not_not.mpr ((and_shiftLeft_eq_zero_iff hirq _).mpr h))]

theorem maskAndAck8259AIrq_of_masked (file : IrqFile) (hirq : irq < 16)
    (h : s.cachedIrqMask.getLsbD irq = true) :
    s.maskAndAck8259AIrq file irq = s.spurious8259AIrq file irq := by
  rw [maskAndAck8259AIrq, if_pos (by rw [ne_eq, and_shiftLeft_eq_zero_iff hirq, h]; decide)]

/-- Acknowledging masks the line. -/
theorem maskAndAck8259AIrq_sets (file : IrqFile) (hirq : irq < 16) :
    SetsMask irq true s (s.maskAndAck8259AIrq file irq) := by
  cases hmasked : s.cachedIrqMask.getLsbD irq with
  | true =>
    rw [maskAndAck8259AIrq_of_masked file hirq hmasked]
    exact spurious8259AIrq_sets file hirq hmasked
  | false =>
    rw [maskAndAck8259AIrq_of_unmasked file hirq hmasked]
    have hbit := getLsbD_or_shiftLeft hirq s.cachedIrqMask
    constructor
    · rw [cachedIrqMask_handleRealIrq]
      exact (hbit irq).trans (by simp)
    · intro i hi
      rw [cachedIrqMask_handleRealIrq]
      exact (hbit i).trans (by simp [hi])
    · exact irqDescTable_handleRealIrq
    · intro hs
      exact (tracks_handleRealIrq hirq fun i hi ↦ (hbit i).trans (by simp [hi])).synced hs

end IrqState

end AphroditeOs
