import AphroditeOs.Irq.Mask
import AphroditeOs.Lib.PortIo

/-!
# The 8259A and its initialisation (`kernel/irq.c`, `boot/setup.asm`)

The chip with its initialisation sequence and its command words.  The driver, written as the port
accesses that it makes, sees the simple chip of `Irq.Pic` once `init_8259A` has run.  Polling,
special masks and rotated priorities are left out: nothing in the repository asks for them.
-/

namespace AphroditeOs

open PortIo

/-! ## The chip -/

/-- What the next write to the data port is. -/
inductive Expects where
  | ocw1
  | icw2
  | icw3
  | icw4
  deriving DecidableEq, Repr

structure Chip where
  isr : BitVec 8
  irr : BitVec 8
  imr : BitVec 8
  readIsr : Bool
  expects : Expects
  icw1 : BitVec 8
  icw2 : BitVec 8
  icw3 : BitVec 8
  icw4 : BitVec 8
  deriving DecidableEq, Repr

namespace Chip

def needsIcw4 (c : Chip) : Bool := c.icw1.getLsbD 0

def isSingle (c : Chip) : Bool := c.icw1.getLsbD 1

def autoEoi (c : Chip) : Bool := c.icw4.getLsbD 1

def mode8086 (c : Chip) : Bool := c.icw4.getLsbD 0

def command (value : BitVec 8) (c : Chip) : Chip :=
  -- ICW1
  if value.getLsbD 4 then
    { c with
      irr := 0#8
      imr := 0#8
      readIsr := false
      expects := .icw2
      icw1 := value
      icw4 := if value.getLsbD 0 then c.icw4 else 0#8 }
  -- OCW3
  else if value.getLsbD 3 then
    { c with readIsr := if value.getLsbD 1 then value.getLsbD 0 else c.readIsr }
  -- OCW2: a specific end of interrupt, or one for the highest priority
  else if value.getLsbD 5 then
    if value.getLsbD 6 then { c with isr := c.isr &&& ~~~(1#8 <<< (value &&& 7#8).toNat) }
    else { c with isr := c.isr &&& (c.isr - 1#8) }
  else c

def afterIcw3 (c : Chip) : Expects := if c.needsIcw4 then .icw4 else .ocw1

def data (value : BitVec 8) (c : Chip) : Chip :=
  match c.expects with
  | .ocw1 => { c with imr := value }
  | .icw2 => { c with icw2 := value, expects := if c.isSingle then c.afterIcw3 else .icw3 }
  | .icw3 => { c with icw3 := value, expects := c.afterIcw3 }
  | .icw4 => { c with icw4 := value, expects := .ocw1 }

/-- A rising edge on an input. -/
def request (input : Nat) (c : Chip) : Chip := { c with irr := c.irr ||| 1#8 <<< input }

/-- The acknowledge cycle for an input. -/
def deliver (input : Nat) (c : Chip) : Chip :=
  { c with
    isr := if c.autoEoi then c.isr else c.isr ||| 1#8 <<< input
    irr := c.irr &&& ~~~(1#8 <<< input) }

/-- The byte that the chip puts on the bus for an input. -/
def vector (input : Nat) (c : Chip) : BitVec 8 := (c.icw2 &&& 0xF8#8) ||| BitVec.ofNat 8 input

def pic (c : Chip) : Pic := ⟨c.isr, c.irr, c.imr, c.readIsr⟩

end Chip

structure Chips where
  master : Chip
  slave : Chip

namespace Chips

def deliver (irq : Nat) (cs : Chips) : Chips :=
  if irq < 8 then { cs with master := cs.master.deliver irq }
  else ⟨cs.master.deliver 2, cs.slave.deliver (irq - 8)⟩

def request (irq : Nat) (cs : Chips) : Chips :=
  if irq < 8 then { cs with master := cs.master.request irq }
  else { cs with slave := cs.slave.request (irq - 8) }

/-- The vector of a line; an input that ICW3 gives to a slave is no line. -/
def vector (irq : Nat) (cs : Chips) : Option (BitVec 8) :=
  if irq < 8 then
    if cs.master.mode8086 && !cs.master.icw3.getLsbD irq then some (cs.master.vector irq) else none
  else if cs.master.icw3.getLsbD 2 && cs.slave.icw3 &&& 7#8 = 2#8 && cs.slave.mode8086 then
    some (cs.slave.vector (irq - 8))
  else none

def device : Device Chips where
  out port value cs :=
    if port = 0x20#16 then { cs with master := cs.master.command value }
    else if port = 0x21#16 then { cs with master := cs.master.data value }
    else if port = 0xA0#16 then { cs with slave := cs.slave.command value }
    else if port = 0xA1#16 then { cs with slave := cs.slave.data value }
    else cs
  inp port cs :=
    if port = 0x20#16 then if cs.master.readIsr then cs.master.isr else cs.master.irr
    else if port = 0x21#16 then cs.master.imr
    else if port = 0xA0#16 then if cs.slave.readIsr then cs.slave.isr else cs.slave.irr
    else if port = 0xA1#16 then cs.slave.imr
    else 0#8

end Chips

/-! ## The driver as a program -/

/-- The variables of the driver. -/
structure Driver where
  cachedIrqMask : BitVec 32
  spuriousIrqMask : BitVec 32
  irqErrCount : BitVec 32
  irqDescTable : Nat → IrqDesc

namespace Driver

def cached21 (v : Driver) : BitVec 8 := v.cachedIrqMask.extractLsb' 0 8

def cachedA1 (v : Driver) : BitVec 8 := v.cachedIrqMask.extractLsb' 8 8

def writeMask (irq : Nat) (v : Driver) : Program Driver :=
  if irq &&& 8 ≠ 0 then .out 0xA1#16 v.cachedA1 (.done v) else .out 0x21#16 v.cached21 (.done v)

def enable8259AIrq (irq : Nat) (v : Driver) : Program Driver :=
  { v with cachedIrqMask := v.cachedIrqMask &&& ~~~(1#32 <<< irq) }.writeMask irq

def disable8259AIrq (irq : Nat) (v : Driver) : Program Driver :=
  { v with cachedIrqMask := v.cachedIrqMask ||| 1#32 <<< irq }.writeMask irq

def end8259AIrq (irq : Nat) (v : Driver) : Program Driver :=
  if (v.irqDescTable irq).status &&& (irqDisabled ||| irqInprogress) = 0#32 then
    v.enable8259AIrq irq
  else .done v

def i8259AIrqReal (irq : Nat) : Program (BitVec 32) :=
  let irqmask := 1#32 <<< irq
  if irq < 8 then
    .out 0x20#16 0x0B#8 <| .inp 0x20#16 fun isr ↦ .out 0x20#16 0x0A#8 <|
      .done (isr.setWidth 32 &&& irqmask)
  else
    .out 0xA0#16 0x0B#8 <| .inp 0xA0#16 fun isr ↦ .out 0xA0#16 0x0A#8 <|
      .done (isr.setWidth 32 &&& irqmask >>> 8)

def handleRealIrq (irq : Nat) (v : Driver) : Program Driver :=
  (v.writeMask irq).bind fun v ↦
    if irq &&& 8 ≠ 0 then
      .out 0xA0#16 (BitVec.ofNat 8 (0x60 + (irq &&& 7))) <| .out 0xA0#16 0x62#8 <| .done v
    else .out 0x20#16 (BitVec.ofNat 8 (0x60 + irq)) <| .done v

def spurious8259AIrq (file : IrqFile) (irq : Nat) (v : Driver) : Program Driver :=
  (i8259AIrqReal irq).bind fun isrVal ↦
    if isrVal ≠ 0#32 then v.handleRealIrq irq
    else
      let v := { v with
        spuriousIrqMask := v.spuriousIrqMask ||| 1#32 <<< irq
        irqErrCount := v.irqErrCount + 1#32 }
      match file with
      | .c => v.handleRealIrq irq
      | .cc => .done v

def maskAndAck8259AIrq (file : IrqFile) (irq : Nat) (v : Driver) : Program Driver :=
  let irqmask := 1#32 <<< irq
  if v.cachedIrqMask &&& irqmask ≠ 0#32 then v.spurious8259AIrq file irq
  else { v with cachedIrqMask := v.cachedIrqMask ||| irqmask }.handleRealIrq irq

def init8259A (autoEoi : BitVec 32) (v : Driver) : Program Driver :=
  .out 0x21#16 0xFF#8 <| .out 0xA1#16 0xFF#8 <|
  .out 0x20#16 0x11#8 <| .out 0x21#16 0x20#8 <| .out 0x21#16 0x4#8 <|
  .out 0x21#16 (if autoEoi ≠ 0#32 then 0x03#8 else 0x01#8) <|
  .out 0xA0#16 0x11#8 <| .out 0xA1#16 0x28#8 <| .out 0xA1#16 0x2#8 <| .out 0xA1#16 0x01#8 <|
  .out 0x21#16 v.cached21 <| .out 0xA1#16 v.cachedA1 <| .done v

end Driver

def PicCall.program (file : IrqFile) (v : Driver) : PicCall → Program Driver
  | .init8259A autoEoi => v.init8259A autoEoi
  | .enable8259AIrq irq => v.enable8259AIrq irq
  | .disable8259AIrq irq => v.disable8259AIrq irq
  | .startup8259AIrq irq => v.enable8259AIrq irq
  | .end8259AIrq irq => v.end8259AIrq irq
  | .maskAndAck8259AIrq irq => v.maskAndAck8259AIrq file irq

/-- `init8259A` of `setup.asm`. -/
def setupInit8259A : Program Unit :=
  .out 0x20#16 0x11#8 <| .out 0xA0#16 0x11#8 <|
  .out 0x21#16 0x20#8 <| .out 0xA1#16 0x28#8 <|
  .out 0x21#16 0x4#8 <| .out 0xA1#16 0x2#8 <|
  .out 0x21#16 1#8 <| .out 0xA1#16 1#8 <|
  .out 0x21#16 0xFF#8 <| .out 0xA1#16 0xFF#8 <| .done ()

/-! ## On the simple chips it is the driver of `Irq.Mask` -/

def picDevice : Device (Pic × Pic) where
  out port value ps :=
    if port = 0x20#16 then (ps.1.command value, ps.2)
    else if port = 0x21#16 then ({ ps.1 with imr := value }, ps.2)
    else if port = 0xA0#16 then (ps.1, ps.2.command value)
    else if port = 0xA1#16 then (ps.1, { ps.2 with imr := value })
    else ps
  inp port ps :=
    if port = 0x20#16 then if ps.1.readIsr then ps.1.isr else ps.1.irr
    else if port = 0xA0#16 then if ps.2.readIsr then ps.2.isr else ps.2.irr
    else 0#8

def Driver.with (v : Driver) (ps : Pic × Pic) : IrqState :=
  ⟨ps.1, ps.2, v.cachedIrqMask, v.spuriousIrqMask, v.irqErrCount, v.irqDescTable⟩

namespace Driver

variable (file : IrqFile) (irq : Nat) (v : Driver) (ps : Pic × Pic)

/-- The program does on the simple chips what `s` says. -/
def Computes (p : Program Driver) (ps : Pic × Pic) (s : IrqState) : Prop :=
  (p.run picDevice ps).1.with (p.run picDevice ps).2 = s

theorem computes_writeMask : Computes (v.writeMask irq) ps ((v.with ps).writeMask irq) := by
  unfold Computes writeMask IrqState.writeMask
  split_ifs
  · rfl
  · rfl

theorem computes_enable8259AIrq :
    Computes (v.enable8259AIrq irq) ps ((v.with ps).enable8259AIrq irq) :=
  computes_writeMask irq _ ps

theorem computes_disable8259AIrq :
    Computes (v.disable8259AIrq irq) ps ((v.with ps).disable8259AIrq irq) :=
  computes_writeMask irq _ ps

theorem computes_end8259AIrq :
    Computes (v.end8259AIrq irq) ps ((v.with ps).end8259AIrq irq) := by
  unfold end8259AIrq IrqState.end8259AIrq
  by_cases h : (v.irqDescTable irq).status &&& (irqDisabled ||| irqInprogress) = 0#32
  · rw [if_pos h, if_pos (by exact h)]
    exact computes_enable8259AIrq irq v ps
  · rw [if_neg h, if_neg (by exact h)]
    rfl

theorem computes_handleRealIrq :
    Computes (v.handleRealIrq irq) ps ((v.with ps).handleRealIrq irq) := by
  unfold Computes handleRealIrq IrqState.handleRealIrq writeMask IrqState.writeMask
  split_ifs
  · rfl
  · rfl

theorem run_i8259AIrqReal :
    (((i8259AIrqReal irq).run picDevice ps).1, v.with ((i8259AIrqReal irq).run picDevice ps).2) =
      (v.with ps).i8259AIrqReal irq := by
  unfold i8259AIrqReal IrqState.i8259AIrqReal
  dsimp only
  split_ifs
  · rfl
  · rfl

theorem computes_spurious8259AIrq :
    Computes (v.spurious8259AIrq file irq) ps ((v.with ps).spurious8259AIrq file irq) := by
  unfold spurious8259AIrq IrqState.spurious8259AIrq Computes
  rw [Program.run_bind, ← run_i8259AIrqReal]
  dsimp only
  split_ifs
  · exact computes_handleRealIrq irq v _
  · cases file with
    | c => exact computes_handleRealIrq irq _ _
    | cc => rfl

theorem computes_maskAndAck8259AIrq :
    Computes (v.maskAndAck8259AIrq file irq) ps ((v.with ps).maskAndAck8259AIrq file irq) := by
  unfold maskAndAck8259AIrq IrqState.maskAndAck8259AIrq
  dsimp only
  by_cases h : v.cachedIrqMask &&& 1#32 <<< irq ≠ 0#32
  · rw [if_pos h, if_pos (by exact h)]
    exact computes_spurious8259AIrq file irq v ps
  · rw [if_neg h, if_neg (by exact h)]
    exact computes_handleRealIrq irq _ ps

/-! ## Once initialised the chips are the simple ones -/

/-- What the driver writes outside `init_8259A`. -/
def Sends (port : BitVec 16) (value : BitVec 8) : Prop :=
  port = 0x21#16 ∨ port = 0xA1#16 ∨
    (port = 0x20#16 ∨ port = 0xA0#16) ∧
      (value = 0x0B#8 ∨ value = 0x0A#8 ∨ ∃ n < 8, value = BitVec.ofNat 8 (0x60 + n))

def Asks (port : BitVec 16) : Prop := port = 0x20#16 ∨ port = 0xA0#16

theorem uses_writeMask : (v.writeMask irq).Uses Sends Asks := by
  unfold writeMask
  split_ifs
  · exact ⟨Or.inr (Or.inl rfl), trivial⟩
  · exact ⟨Or.inl rfl, trivial⟩

theorem uses_end8259AIrq : (v.end8259AIrq irq).Uses Sends Asks := by
  unfold end8259AIrq
  split_ifs
  · exact uses_writeMask irq _
  · trivial

theorem uses_handleRealIrq (hirq : irq < 16) : (v.handleRealIrq irq).Uses Sends Asks := by
  refine (uses_writeMask irq v).bind fun v ↦ ?_
  split_ifs with hhigh
  · refine ⟨Or.inr (Or.inr ⟨Or.inr rfl, Or.inr (Or.inr ⟨_, ?_, rfl⟩)⟩),
      Or.inr (Or.inr ⟨Or.inr rfl, Or.inr (Or.inr ⟨2, by decide, rfl⟩)⟩), trivial⟩
    exact Nat.lt_of_le_of_lt Nat.and_le_right (by decide)
  · rw [IrqState.and_eight_ne_zero_iff hirq, Nat.not_le] at hhigh
    exact ⟨Or.inr (Or.inr ⟨Or.inl rfl, Or.inr (Or.inr ⟨irq, hhigh, rfl⟩)⟩), trivial⟩

theorem uses_i8259AIrqReal : (i8259AIrqReal irq).Uses Sends Asks := by
  unfold i8259AIrqReal
  dsimp only
  split_ifs
  · exact ⟨Or.inr (Or.inr ⟨Or.inl rfl, Or.inl rfl⟩), Or.inl rfl, fun _ ↦
      ⟨Or.inr (Or.inr ⟨Or.inl rfl, Or.inr (Or.inl rfl)⟩), trivial⟩⟩
  · exact ⟨Or.inr (Or.inr ⟨Or.inr rfl, Or.inl rfl⟩), Or.inr rfl, fun _ ↦
      ⟨Or.inr (Or.inr ⟨Or.inr rfl, Or.inr (Or.inl rfl)⟩), trivial⟩⟩

theorem uses_maskAndAck8259AIrq (hirq : irq < 16) :
    (v.maskAndAck8259AIrq file irq).Uses Sends Asks := by
  unfold maskAndAck8259AIrq
  dsimp only
  split_ifs
  · refine (uses_i8259AIrqReal irq).bind fun isrVal ↦ ?_
    split_ifs
    · exact uses_handleRealIrq irq v hirq
    · cases file with
      | c => exact uses_handleRealIrq irq _ hirq
      | cc => trivial
  · exact uses_handleRealIrq irq _ hirq

end Driver

/-- Both chips await no initialisation word: vectors from `0x20` and `0x28`, the slave on input 2 of
the master, 8086 mode, normal end of interrupt. -/
structure Chips.Configured (cs : Chips) : Prop where
  masterExpects : cs.master.expects = .ocw1
  slaveExpects : cs.slave.expects = .ocw1
  masterIcw2 : cs.master.icw2 = 0x20#8
  slaveIcw2 : cs.slave.icw2 = 0x28#8
  masterIcw3 : cs.master.icw3 = 4#8
  slaveIcw3 : cs.slave.icw3 = 2#8
  masterIcw4 : cs.master.icw4 = 1#8
  slaveIcw4 : cs.slave.icw4 = 1#8

def Chips.pics (cs : Chips) : Pic × Pic := (cs.master.pic, cs.slave.pic)

def Chips.Shows (cs : Chips) (ps : Pic × Pic) : Prop := cs.Configured ∧ cs.pics = ps

theorem Chip.pic_command {value : BitVec 8} (c : Chip)
    (hvalue : value = 0x0B#8 ∨ value = 0x0A#8 ∨ ∃ n < 8, value = BitVec.ofNat 8 (0x60 + n)) :
    c.command value = { c with
      isr := (c.pic.command value).isr, readIsr := (c.pic.command value).readIsr } ∧
      (c.command value).pic = c.pic.command value := by
  rcases hvalue with rfl | rfl | ⟨n, hn, rfl⟩
  · exact ⟨rfl, rfl⟩
  · exact ⟨rfl, rfl⟩
  · interval_cases n <;> exact ⟨rfl, rfl⟩

theorem Chip.pic_data {c : Chip} (hexpects : c.expects = .ocw1) (value : BitVec 8) :
    c.data value = { c with imr := value } := by
  rw [Chip.data, hexpects]

theorem Chips.Shows.out {port : BitVec 16} {value : BitVec 8} (hsends : Driver.Sends port value)
    {cs : Chips} {ps : Pic × Pic} (h : cs.Shows ps) :
    (Chips.device.out port value cs).Shows (picDevice.out port value ps) := by
  obtain ⟨hconf, rfl⟩ := h
  rcases hsends with rfl | rfl | ⟨rfl | rfl, hvalue⟩
  · show Chips.Shows { cs with master := cs.master.data value } _
    rw [Chip.pic_data hconf.masterExpects]
    exact ⟨{ hconf with }, rfl⟩
  · show Chips.Shows { cs with slave := cs.slave.data value } _
    rw [Chip.pic_data hconf.slaveExpects]
    exact ⟨{ hconf with }, rfl⟩
  · show Chips.Shows { cs with master := cs.master.command value } (cs.master.pic.command value, _)
    obtain ⟨hcommand, hpic⟩ := cs.master.pic_command hvalue
    rw [← hpic, hcommand]
    exact ⟨{ hconf with }, rfl⟩
  · show Chips.Shows { cs with slave := cs.slave.command value } (_, cs.slave.pic.command value)
    obtain ⟨hcommand, hpic⟩ := cs.slave.pic_command hvalue
    rw [← hpic, hcommand]
    exact ⟨{ hconf with }, rfl⟩

theorem Chips.Shows.inp {port : BitVec 16} (hasks : Driver.Asks port) {cs : Chips} {ps : Pic × Pic}
    (h : cs.Shows ps) : Chips.device.inp port cs = picDevice.inp port ps := by
  obtain ⟨-, rfl⟩ := h
  rcases hasks with rfl | rfl
  · rfl
  · rfl

/-- A call that keeps to what the driver sends does on the chips what it does on the simple ones. -/
theorem Chips.Shows.run {p : Program Driver} (hp : p.Uses Driver.Sends Driver.Asks) {cs : Chips}
    (hconf : cs.Configured) {s : IrqState} (hs : Driver.Computes p cs.pics s) :
    (p.run device cs).2.Configured ∧ (p.run device cs).1.with (p.run device cs).2.pics = s := by
  obtain ⟨hvalue, hconf', hpics⟩ := Program.run_sim (fun _ _ hsends _ _ h ↦ h.out hsends)
    (fun _ hasks _ _ h ↦ h.inp hasks) hp (show cs.Shows cs.pics from ⟨hconf, rfl⟩)
  refine ⟨hconf', ?_⟩
  rw [hvalue, hpics]
  exact hs

/-! ## Whatever the chips held before -/

theorem Chip.command_icw1 (c : Chip) : c.command 0x11#8 = { c with
    irr := 0#8, imr := 0#8, readIsr := false, expects := .icw2, icw1 := 0x11#8 } :=
  rfl

-- ICW1 is accepted in every state, so that what was awaited before does not matter.
theorem Chip.data_icws (c : Chip) (icw2 icw3 icw4 : BitVec 8) :
    (((c.command 0x11#8).data icw2).data icw3).data icw4 = { c with
      irr := 0#8, imr := 0#8, readIsr := false, expects := .ocw1
      icw1 := 0x11#8, icw2 := icw2, icw3 := icw3, icw4 := icw4 } := by
  rw [Chip.command_icw1]
  simp [data, isSingle, afterIcw3, needsIcw4]

theorem Chip.isr_data (c : Chip) (value : BitVec 8) : (c.data value).isr = c.isr := by
  unfold Chip.data
  cases c.expects <;> rfl

theorem run_init8259A (autoEoi : BitVec 32) (v : Driver) (cs : Chips) :
    (v.init8259A autoEoi).run Chips.device cs = (v,
      { master := (((((cs.master.data 0xFF#8).command 0x11#8).data 0x20#8).data 4#8).data
          (if autoEoi ≠ 0#32 then 0x03#8 else 0x01#8)).data v.cached21
        slave := (((((cs.slave.data 0xFF#8).command 0x11#8).data 0x28#8).data 2#8).data
          0x01#8).data v.cachedA1 }) :=
  rfl

/-- `init_8259A(0)` configures chips that were in any state, also amid an initialisation. -/
theorem init8259A_shows (v : Driver) (cs : Chips) :
    ((v.init8259A 0#32).run Chips.device cs).2.Configured ∧
      ((v.init8259A 0#32).run Chips.device cs).1.with
        ((v.init8259A 0#32).run Chips.device cs).2.pics = ((v.with cs.pics).init8259A 0#32).2 := by
  rw [run_init8259A, IrqState.init8259A_snd, Chip.data_icws, Chip.data_icws, Chip.isr_data,
    Chip.isr_data, Chip.pic_data rfl, Chip.pic_data rfl]
  exact ⟨⟨rfl, rfl, rfl, rfl, rfl, rfl, rfl, rfl⟩, rfl⟩

/-- So does the initialisation of `setup.asm`, which masks every line. -/
theorem setupInit8259A_configured (cs : Chips) :
    ((setupInit8259A.run Chips.device cs).2).Configured ∧
      (setupInit8259A.run Chips.device cs).2.master.imr = 0xFF#8 ∧
      (setupInit8259A.run Chips.device cs).2.slave.imr = 0xFF#8 := by
  have hrun : setupInit8259A.run Chips.device cs = ((),
      { master := ((((cs.master.command 0x11#8).data 0x20#8).data 4#8).data 1#8).data 0xFF#8
        slave := ((((cs.slave.command 0x11#8).data 0x28#8).data 2#8).data 1#8).data 0xFF#8 }) := rfl
  rw [hrun, Chip.data_icws, Chip.data_icws, Chip.pic_data rfl, Chip.pic_data rfl]
  exact ⟨⟨rfl, rfl, rfl, rfl, rfl, rfl, rfl, rfl⟩, rfl, rfl⟩

/-! ## Any sequence of calls, requests and deliveries -/

/-- Input 2 of the master is the output of the slave: a request there is one like the others. -/
inductive ChipEvent where
  | call (c : PicCall)
  | request (irq : Fin 16)
  | deliver (irq : Fin 16)
  deriving DecidableEq, Repr

namespace ChipEvent

/-- `init_8259A` is called for normal ends of interrupt only. -/
def NormalEoi : ChipEvent → Prop
  | call (.init8259A autoEoi) => autoEoi = 0#32
  | _ => True

def step (file : IrqFile) (s : Driver × Chips) : ChipEvent → Driver × Chips
  | call c => (c.program file s.1).run Chips.device s.2
  | request irq => (s.1, s.2.request irq)
  | deliver irq => (s.1, s.2.deliver irq)

def after (file : IrqFile) (events : List ChipEvent) (s : Driver × Chips) : Driver × Chips :=
  events.foldl (step file) s

end ChipEvent

def Pic.request (input : Nat) (p : Pic) : Pic := { p with irr := p.irr ||| 1#8 <<< input }

namespace IrqState

def request (irq : Nat) (s : IrqState) : IrqState :=
  if irq < 8 then { s with master := s.master.request irq }
  else { s with slave := s.slave.request (irq - 8) }

def onEvent (file : IrqFile) (s : IrqState) : ChipEvent → IrqState
  | .call c => c.run file s
  | .request irq => s.request irq
  | .deliver irq => s.deliver irq

def afterEvents (file : IrqFile) (events : List ChipEvent) (s : IrqState) : IrqState :=
  events.foldl (onEvent file) s

variable {s : IrqState} (file : IrqFile)

theorem coherent_onEvent (hs : s.Coherent) (e : ChipEvent) : (s.onEvent file e).Coherent := by
  cases e with
  | call c => exact (tracks_run c s).coherent hs
  | request irq =>
    show (s.request irq).Coherent
    unfold request
    split_ifs
    · exact ⟨hs.master, hs.slave, hs.masterRead, hs.slaveRead⟩
    · exact ⟨hs.master, hs.slave, hs.masterRead, hs.slaveRead⟩
  | deliver irq =>
    show (s.deliver irq).Coherent
    unfold deliver
    split_ifs
    · exact ⟨hs.master, hs.slave, hs.masterRead, hs.slaveRead⟩
    · exact ⟨hs.master, hs.slave, hs.masterRead, hs.slaveRead⟩

end IrqState

/-- What the driver's model has of the chips. -/
def seen (s : Driver × Chips) : IrqState := s.1.with s.2.pics

variable (file : IrqFile)

theorem Chip.deliver_of_icw4 {c : Chip} (h : c.icw4 = 1#8) (input : Nat) :
    c.deliver input = { c with
      isr := c.isr ||| 1#8 <<< input, irr := c.irr &&& ~~~(1#8 <<< input) } := by
  have hnormal : c.autoEoi = false := by
    rw [autoEoi, h]
    rfl
  rw [deliver, if_neg (by simp [hnormal])]

theorem Chips.Configured.deliver {v : Driver} {cs : Chips} (h : cs.Configured) (irq : Nat) :
    (cs.deliver irq).Configured ∧ v.with (cs.deliver irq).pics = (v.with cs.pics).deliver irq := by
  unfold Chips.deliver IrqState.deliver
  rw [Chip.deliver_of_icw4 h.masterIcw4, Chip.deliver_of_icw4 h.masterIcw4,
    Chip.deliver_of_icw4 h.slaveIcw4]
  split_ifs
  · exact ⟨{ h with }, rfl⟩
  · exact ⟨{ h with }, rfl⟩

theorem Chips.Configured.request {v : Driver} {cs : Chips} (h : cs.Configured) (irq : Nat) :
    (cs.request irq).Configured ∧ v.with (cs.request irq).pics = (v.with cs.pics).request irq := by
  unfold Chips.request IrqState.request
  split_ifs
  · exact ⟨{ h with }, rfl⟩
  · exact ⟨{ h with }, rfl⟩

theorem Chips.Configured.call {v : Driver} {cs : Chips} (h : cs.Configured) {c : PicCall}
    (hc : (ChipEvent.call c).NormalEoi) :
    ((c.program file v).run device cs).2.Configured ∧
      seen ((c.program file v).run device cs) = c.run file (v.with cs.pics) := by
  cases c with
  | init8259A autoEoi =>
    obtain rfl : autoEoi = 0#32 := hc
    exact init8259A_shows v cs
  | enable8259AIrq irq =>
    exact Shows.run (Driver.uses_writeMask irq _) h (Driver.computes_enable8259AIrq irq v _)
  | disable8259AIrq irq =>
    exact Shows.run (Driver.uses_writeMask irq _) h (Driver.computes_disable8259AIrq irq v _)
  | startup8259AIrq irq =>
    exact Shows.run (Driver.uses_writeMask irq _) h (Driver.computes_enable8259AIrq irq v _)
  | end8259AIrq irq =>
    exact Shows.run (Driver.uses_end8259AIrq irq v) h (Driver.computes_end8259AIrq irq v _)
  | maskAndAck8259AIrq irq =>
    exact Shows.run (Driver.uses_maskAndAck8259AIrq file irq v irq.isLt) h
      (Driver.computes_maskAndAck8259AIrq file irq v _)

theorem Chips.Configured.step {s : Driver × Chips} (h : s.2.Configured) {e : ChipEvent}
    (he : e.NormalEoi) :
    (e.step file s).2.Configured ∧ seen (e.step file s) = (seen s).onEvent file e := by
  cases e with
  | call c => exact h.call file he
  | request irq => exact h.request irq
  | deliver irq => exact h.deliver irq

theorem Chips.Configured.after {events : List ChipEvent} (hevents : ∀ e ∈ events, e.NormalEoi)
    {s : Driver × Chips} (h : s.2.Configured) :
    (ChipEvent.after file events s).2.Configured ∧
      seen (ChipEvent.after file events s) = (seen s).afterEvents file events := by
  induction events generalizing s with
  | nil => exact ⟨h, rfl⟩
  | cons e events ih =>
    obtain ⟨hconf, hseen⟩ := h.step file (hevents e List.mem_cons_self)
    obtain ⟨hconf', hseen'⟩ := ih (fun e' he' ↦ hevents e' (List.mem_cons_of_mem _ he')) hconf
    refine ⟨hconf', hseen'.trans ?_⟩
    rw [hseen]
    rfl

theorem IrqState.coherent_afterEvents {s : IrqState} (hs : s.Coherent) (events : List ChipEvent) :
    (s.afterEvents file events).Coherent := by
  induction events generalizing s with
  | nil => exact hs
  | cons e events ih => exact ih (coherent_onEvent file hs e)

theorem Chips.Configured.vector_eq {cs : Chips} (h : cs.Configured) (irq : Fin 16) :
    cs.vector irq = if irq = 2 then none else some (BitVec.ofNat 8 (0x20 + irq)) := by
  unfold Chips.vector Chip.vector Chip.mode8086
  rw [h.masterIcw2, h.slaveIcw2, h.masterIcw3, h.slaveIcw3, h.masterIcw4, h.slaveIcw4]
  revert irq
  decide

/-- The mask bit of a line in its chip. -/
def Chips.masked (irq : Nat) (cs : Chips) : Bool :=
  if irq < 8 then cs.master.imr.getLsbD irq else cs.slave.imr.getLsbD (irq - 8)

/-- **The simple chips are enough.**  After `init_8259A(0)`, whatever the chips held before, and any
sequence of calls, requests and deliveries: the registers and the variables are those of the driver
on the simple chips, no initialisation word is awaited, each line is masked as the cached mask says,
and the vectors are `0x20` onwards, with none for the line of the cascade. -/
theorem seen_after_init8259A (file : IrqFile) (v : Driver) (cs : Chips) (events : List ChipEvent)
    (hevents : ∀ e ∈ events, e.NormalEoi) :
    let s := ChipEvent.after file events ((v.init8259A 0#32).run Chips.device cs)
    seen s = ((v.with cs.pics).init8259A 0#32).2.afterEvents file events ∧
      s.2.master.expects = .ocw1 ∧ s.2.slave.expects = .ocw1 ∧
      ∀ irq : Fin 16, s.2.masked irq = s.1.cachedIrqMask.getLsbD irq ∧
        s.2.vector irq = if irq = 2 then none else some (BitVec.ofNat 8 (0x20 + irq)) := by
  intro s
  obtain ⟨hinit, hseen⟩ := init8259A_shows v cs
  obtain ⟨hconf, hafter⟩ := hinit.after file hevents
  have hrun : seen s = ((v.with cs.pics).init8259A 0#32).2.afterEvents file events := by
    rw [← hseen]
    exact hafter
  have hcoherent : (seen s).Coherent := by
    rw [hrun]
    exact IrqState.coherent_afterEvents file (IrqState.coherent_init8259A 0#32 _) events
  refine ⟨hrun, hconf.masterExpects, hconf.slaveExpects, fun irq ↦ ⟨?_, hconf.vector_eq irq⟩⟩
  exact IrqState.Synced.picMasked_eq ⟨hcoherent.master, hcoherent.slave⟩ irq.isLt

/-- The master awaits its ICW3, the slave has no 8086 mode. -/
def halfwayChips : Chips where
  master := ⟨0#8, 2#8, 0#8, false, .icw3, 0x11#8, 0x08#8, 0#8, 0#8⟩
  slave := ⟨0#8, 0#8, 0#8, true, .ocw1, 0x11#8, 0x70#8, 2#8, 0#8⟩

theorem seen_after_init8259A_halfway :
    let v : Driver := ⟨0xFFFF#32, 0#32, 0#32, IrqState.initIsaIrqs.irqDescTable⟩
    let s := ChipEvent.after .c [.call (.enable8259AIrq 9), .request 9, .deliver 9,
      .call (.maskAndAck8259AIrq 9)] ((v.init8259A 0#32).run Chips.device halfwayChips)
    s.2.masked 9 = s.1.cachedIrqMask.getLsbD 9 ∧ s.2.vector 9 = some 0x29#8 := by
  intro v s
  have hevents : ∀ e ∈ [ChipEvent.call (.enable8259AIrq 9), .request 9, .deliver 9,
      .call (.maskAndAck8259AIrq 9)], e.NormalEoi := by
    intro e he
    fin_cases he <;> trivial
  exact (seen_after_init8259A .c v halfwayChips _ hevents).2.2.2 9

end AphroditeOs
