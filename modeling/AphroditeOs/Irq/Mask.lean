import AphroditeOs.Irq.Pic

/-!
# The cached mask (`kernel/irq.c`, `kernel/irq.cc`)

`init_8259A` and the five functions of `i8259A_irq_type`, called in any order.  Between two calls
the chips may receive and serve anything, and others may change the descriptors.
-/

namespace AphroditeOs

/-- The `ack` of `i8259A_irq_type`. -/
inductive I8259AAck where
  | disable8259AIrq
  | maskAndAck8259AIrq
  deriving DecidableEq, Repr

namespace IrqState

/-- The `ack` that is chosen, and the state. -/
def init8259A (autoEoi : BitVec 32) (s : IrqState) : I8259AAck × IrqState :=
  let s := s.outb 0x21#16 0xFF#8
  let s := s.outb 0xA1#16 0xFF#8
  -- ICW1 to ICW4 of the master
  let s := s.outb 0x20#16 0x11#8
  let s := s.outb 0x21#16 0x20#8
  let s := s.outb 0x21#16 0x4#8
  let s := if autoEoi ≠ 0#32 then s.outb 0x21#16 0x03#8 else s.outb 0x21#16 0x01#8
  -- and of the slave
  let s := s.outb 0xA0#16 0x11#8
  let s := s.outb 0xA1#16 0x28#8
  let s := s.outb 0xA1#16 0x2#8
  let s := s.outb 0xA1#16 0x01#8
  let ack := if autoEoi ≠ 0#32 then .disable8259AIrq else .maskAndAck8259AIrq
  let s := s.outb 0x21#16 s.cached21
  (ack, s.outb 0xA1#16 s.cachedA1)

def disable8259AIrq (irq : Nat) (s : IrqState) : IrqState :=
  { s with cachedIrqMask := s.cachedIrqMask ||| 1#32 <<< irq }.writeMask irq

def startup8259AIrq (irq : Nat) (s : IrqState) : BitVec 32 × IrqState :=
  (0#32, s.enable8259AIrq irq)

def i8259AIrqPending (irq : Nat) (s : IrqState) : BitVec 32 :=
  let irqmask := 1#32 <<< irq
  if irq < 8 then (s.inb 0x20#16).setWidth 32 &&& irqmask
  else (s.inb 0xA0#16).setWidth 32 &&& irqmask >>> 8

end IrqState

inductive PicCall where
  | init8259A (autoEoi : BitVec 32)
  | enable8259AIrq (irq : Fin 16)
  | disable8259AIrq (irq : Fin 16)
  | startup8259AIrq (irq : Fin 16)
  | end8259AIrq (irq : Fin 16)
  | maskAndAck8259AIrq (irq : Fin 16)
  deriving DecidableEq, Repr

namespace PicCall

def run (file : IrqFile) (s : IrqState) : PicCall → IrqState
  | init8259A autoEoi => (s.init8259A autoEoi).2
  | enable8259AIrq irq => s.enable8259AIrq irq
  | disable8259AIrq irq => s.disable8259AIrq irq
  | startup8259AIrq irq => (s.startup8259AIrq irq).2
  | end8259AIrq irq => s.end8259AIrq irq
  | maskAndAck8259AIrq irq => s.maskAndAck8259AIrq file irq

/-- The line that a call is for. -/
def line : PicCall → Option (Fin 16)
  | init8259A _ => none
  | enable8259AIrq irq => some irq
  | disable8259AIrq irq => some irq
  | startup8259AIrq irq => some irq
  | end8259AIrq irq => some irq
  | maskAndAck8259AIrq irq => some irq

def isInit : PicCall → Bool
  | init8259A _ => true
  | _ => false

end PicCall

/-- What a call comes upon that the calls before it have not left: the registers of the chips and
the descriptors. -/
structure Meanwhile where
  masterIsr : BitVec 8
  masterIrr : BitVec 8
  slaveIsr : BitVec 8
  slaveIrr : BitVec 8
  irqDescTable : Nat → IrqDesc

def IrqState.meanwhile (m : Meanwhile) (s : IrqState) : IrqState :=
  { s with
    master := { s.master with isr := m.masterIsr, irr := m.masterIrr }
    slave := { s.slave with isr := m.slaveIsr, irr := m.slaveIrr }
    irqDescTable := m.irqDescTable }

def IrqState.afterCalls (file : IrqFile) (calls : List (Meanwhile × PicCall)) (s : IrqState) :
    IrqState :=
  calls.foldl (fun s c ↦ c.2.run file (s.meanwhile c.1)) s

/-- The bytes last written to the data ports are those of the cached mask, and a read of a command
port returns the request register. -/
structure IrqState.Coherent (s : IrqState) : Prop where
  master : s.master.imr = s.cached21
  slave : s.slave.imr = s.cachedA1
  masterRead : s.master.readIsr = false
  slaveRead : s.slave.readIsr = false

namespace IrqState

variable {s t : IrqState} {file : IrqFile}

theorem Tracks.coherent (h : Tracks s t) (hs : s.Coherent) : t.Coherent := by
  have hsynced := h.synced ⟨hs.master, hs.slave⟩
  constructor
  · exact hsynced.master
  · exact hsynced.slave
  · simpa [hs.masterRead] using h.masterRead
  · simpa [hs.slaveRead] using h.slaveRead

theorem Coherent.tracks (hs : t.Coherent) : Tracks s t :=
  ⟨Or.inl hs.master, Or.inl hs.slave, Or.inl hs.masterRead, Or.inl hs.slaveRead⟩

theorem tracks_meanwhile (m : Meanwhile) (s : IrqState) : Tracks s (s.meanwhile m) :=
  ⟨Or.inr ⟨rfl, rfl⟩, Or.inr ⟨rfl, rfl⟩, Or.inr rfl, Or.inr rfl⟩

/-! ## The functions -/

theorem init8259A_snd (autoEoi : BitVec 32) (s : IrqState) : (s.init8259A autoEoi).2 =
    { s with
      master := { s.master with irr := 0#8, imr := s.cached21, readIsr := false }
      slave := { s.slave with irr := 0#8, imr := s.cachedA1, readIsr := false } } := by
  unfold init8259A
  by_cases h : autoEoi ≠ 0#32
  · simp only [if_pos h]
    rfl
  · simp only [if_neg h]
    rfl

theorem coherent_init8259A (autoEoi : BitVec 32) (s : IrqState) :
    (s.init8259A autoEoi).2.Coherent := by
  rw [init8259A_snd]
  exact ⟨rfl, rfl, rfl, rfl⟩

theorem disable8259AIrq_sets {irq : Nat} (hirq : irq < 16) :
    SetsMask irq true s (s.disable8259AIrq irq) := by
  have hbit := getLsbD_or_shiftLeft hirq s.cachedIrqMask
  constructor
  · rw [disable8259AIrq, cachedIrqMask_writeMask]
    exact (hbit irq).trans (by simp)
  · intro i hi
    rw [disable8259AIrq, cachedIrqMask_writeMask]
    exact (hbit i).trans (by simp [hi])
  · exact irqDescTable_writeMask _ _
  · exact (tracks_writeMask hirq fun i hi ↦ (hbit i).trans (by simp [hi])).synced

theorem tracks_enable8259AIrq {irq : Nat} (hirq : irq < 16) :
    Tracks s (s.enable8259AIrq irq) :=
  tracks_writeMask hirq fun i hi ↦
    (getLsbD_and_not_shiftLeft hirq s.cachedIrqMask i).trans (by simp [hi])

theorem tracks_disable8259AIrq {irq : Nat} (hirq : irq < 16) :
    Tracks s (s.disable8259AIrq irq) :=
  tracks_writeMask hirq fun i hi ↦
    (getLsbD_or_shiftLeft hirq s.cachedIrqMask i).trans (by simp [hi])

theorem tracks_end8259AIrq {irq : Nat} (hirq : irq < 16) : Tracks s (s.end8259AIrq irq) := by
  unfold end8259AIrq
  split_ifs
  · exact tracks_enable8259AIrq hirq
  · exact ⟨Or.inr ⟨rfl, rfl⟩, Or.inr ⟨rfl, rfl⟩, Or.inr rfl, Or.inr rfl⟩

theorem tracks_maskAndAck8259AIrq (file : IrqFile) {irq : Nat} (hirq : irq < 16) :
    Tracks s (s.maskAndAck8259AIrq file irq) := by
  unfold maskAndAck8259AIrq
  dsimp only
  split_ifs
  · exact tracks_spurious8259AIrq file hirq
  · exact tracks_handleRealIrq hirq fun i hi ↦
      (getLsbD_or_shiftLeft hirq s.cachedIrqMask i).trans (by simp [hi])

theorem tracks_run (c : PicCall) (s : IrqState) : Tracks s (c.run file s) := by
  cases c with
  | init8259A autoEoi => exact (coherent_init8259A autoEoi s).tracks
  | enable8259AIrq irq => exact tracks_enable8259AIrq irq.isLt
  | disable8259AIrq irq => exact tracks_disable8259AIrq irq.isLt
  | startup8259AIrq irq => exact tracks_enable8259AIrq irq.isLt
  | end8259AIrq irq => exact tracks_end8259AIrq irq.isLt
  | maskAndAck8259AIrq irq => exact tracks_maskAndAck8259AIrq file irq.isLt

/-- A call changes no mask bit but that of its line. -/
theorem getLsbD_run (c : PicCall) (s : IrqState) {i : Nat}
    (hi : ∀ irq, c.line = some irq → i ≠ irq) :
    (c.run file s).cachedIrqMask.getLsbD i = s.cachedIrqMask.getLsbD i := by
  cases c with
  | init8259A autoEoi =>
    show (s.init8259A autoEoi).2.cachedIrqMask.getLsbD i = _
    rw [init8259A_snd]
  | enable8259AIrq irq => exact (enable8259AIrq_sets irq.isLt).others i (hi irq rfl)
  | disable8259AIrq irq => exact (disable8259AIrq_sets irq.isLt).others i (hi irq rfl)
  | startup8259AIrq irq => exact (enable8259AIrq_sets irq.isLt).others i (hi irq rfl)
  | end8259AIrq irq =>
    show (s.end8259AIrq irq).cachedIrqMask.getLsbD i = _
    unfold end8259AIrq
    split_ifs
    · exact (enable8259AIrq_sets irq.isLt).others i (hi irq rfl)
    · rfl
  | maskAndAck8259AIrq irq => exact (maskAndAck8259AIrq_sets file irq.isLt).others i (hi irq rfl)

/-! ## Any sequence of calls -/

theorem afterCalls_concat (calls : List (Meanwhile × PicCall)) (m : Meanwhile) (c : PicCall)
    (s : IrqState) : s.afterCalls file (calls ++ [(m, c)]) =
      c.run file ((s.afterCalls file calls).meanwhile m) := by
  simp [afterCalls]

theorem tracks_afterCalls (calls : List (Meanwhile × PicCall)) (s : IrqState) :
    Tracks s (s.afterCalls file calls) := by
  induction calls generalizing s with
  | nil => exact ⟨Or.inr ⟨rfl, rfl⟩, Or.inr ⟨rfl, rfl⟩, Or.inr rfl, Or.inr rfl⟩
  | cons c calls ih =>
    exact ((tracks_meanwhile c.1 s).trans (tracks_run c.2 (s.meanwhile c.1))).trans (ih _)

theorem coherent_afterCalls {calls : List (Meanwhile × PicCall)}
    (hinit : s.Coherent ∨ ∃ c ∈ calls, c.2.isInit = true) :
    (s.afterCalls file calls).Coherent := by
  rcases hinit with hs | ⟨c, hc, hinit⟩
  · exact (tracks_afterCalls calls s).coherent hs
  · obtain ⟨pre, post, rfl⟩ := List.append_of_mem hc
    have hafter : s.afterCalls file (pre ++ c :: post) =
        (c.2.run file ((s.afterCalls file pre).meanwhile c.1)).afterCalls file post := by
      simp [afterCalls]
    rw [hafter]
    apply (tracks_afterCalls post _).coherent
    obtain ⟨m, c⟩ := c
    cases c with
    | init8259A autoEoi => exact coherent_init8259A autoEoi _
    | enable8259AIrq irq => contradiction
    | disable8259AIrq irq => contradiction
    | startup8259AIrq irq => contradiction
    | end8259AIrq irq => contradiction
    | maskAndAck8259AIrq irq => contradiction

/-- **Mask coherence.** After each call of any sequence: a data port that has been written has its
byte of the cached mask, and the other still has what it had, with its byte of the mask as it was;
once `init_8259A` has been called, or when all was coherent at the start, both ports have theirs and
both command ports select the request register; and the call has changed no mask bit but that of its
line. -/
theorem maskCoherent_afterCalls (file : IrqFile) (s : IrqState)
    (calls : List (Meanwhile × PicCall)) (m : Meanwhile) (c : PicCall) :
    Tracks s (s.afterCalls file (calls ++ [(m, c)])) ∧
      (s.Coherent ∨ (∃ c' ∈ calls ++ [(m, c)], c'.2.isInit = true) →
        (s.afterCalls file (calls ++ [(m, c)])).Coherent) ∧
      ∀ i : Nat, (∀ irq, c.line = some irq → i ≠ irq) →
        (s.afterCalls file (calls ++ [(m, c)])).cachedIrqMask.getLsbD i =
          (s.afterCalls file calls).cachedIrqMask.getLsbD i := by
  refine ⟨tracks_afterCalls _ s, coherent_afterCalls, fun i hi ↦ ?_⟩
  rw [afterCalls_concat]
  exact getLsbD_run c _ hi

/-- What `i8259A_irq_pending` reads is a request bit. -/
theorem Coherent.i8259AIrqPending_eq_zero_iff (hs : s.Coherent) (irq : Fin 16) :
    s.i8259AIrqPending irq = 0#32 ↔
      (if irq.val < 8 then s.master.irr.getLsbD irq else s.slave.irr.getLsbD (irq - 8)) = false := by
  obtain ⟨irq, hirq⟩ := irq
  unfold i8259AIrqPending
  dsimp only
  split_ifs with hlow
  · have hread : s.inb 0x20#16 = s.master.irr := by simp [inb, hs.masterRead]
    rw [hread, and_shiftLeft_eq_zero_iff hirq, BitVec.getLsbD_setWidth]
    simp [show irq < 32 by omega]
  · have hread : s.inb 0xA0#16 = s.slave.irr := by simp [inb, hs.slaveRead]
    have hshift : 1#32 <<< irq >>> 8 = 1#32 <<< (irq - 8) := by
      interval_cases irq <;> first | omega | rfl
    rw [hread, hshift, and_shiftLeft_eq_zero_iff (by omega), BitVec.getLsbD_setWidth]
    simp [show irq - 8 < 32 by omega]

end IrqState

end AphroditeOs
