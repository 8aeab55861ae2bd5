import AphroditeOs.Page

/-!
# The interrupt descriptor table (`boot/head.S`, `kernel/traps.c`, `kernel/irq.c`)

`setup_idt` points every vector at `ignore_int`; `trap_init` and then `init_IRQ` replace the gates
of theirs.  `init_IRQ` goes over all of `interrupt`, of which the last 208 pointers are null.
-/

namespace AphroditeOs

def kernelCs : Word := 0x60#32

/-- The `a` and `b` of a `struct desc_struct`. -/
structure DescStruct where
  a : Word
  b : Word
  deriving DecidableEq, Repr

/-- A write to the low half of a register. -/
def movw (src dst : Word) : Word := (dst &&& 0xFFFF0000#32) ||| (src &&& 0xFFFF#32)

def setGate (dpl type offset : Word) : DescStruct :=
  let ebx := 0x8000#32 + dpl <<< 13 + type <<< 8
  let eax := movw offset (kernelCs <<< 16)
  let edx := movw ebx offset
  ⟨eax, edx⟩

abbrev IdtTable := Nat → DescStruct

def setTrapGate (vector : Nat) (offset : Word) (idt : IdtTable) : IdtTable :=
  Function.update idt vector (setGate 0#32 15#32 offset)

def setSystemGate (vector : Nat) (offset : Word) (idt : IdtTable) : IdtTable :=
  Function.update idt vector (setGate 3#32 15#32 offset)

def setSystemIntrGate (vector : Nat) (offset : Word) (idt : IdtTable) : IdtTable :=
  Function.update idt vector (setGate 3#32 14#32 offset)

-- the offset is not used
def setTaskGate (vector : Nat) (_offset : Word) (idt : IdtTable) : IdtTable :=
  Function.update idt vector (setGate 0#32 3#32 0#32)

def setInterruptGate (vector : Nat) (offset : Word) (idt : IdtTable) : IdtTable :=
  Function.update idt vector (setGate 0#32 14#32 offset)

inductive TrapStub where
  | divideError
  | debug
  | nmi
  | int3
  | overflow
  | bounds
  | invalidOp
  | deviceNotAvailable
  | doubleFault
  | coprocessorSegmentOverrun
  | invalidTss
  | segmentNotPresent
  | stackSegment
  | generalProtection
  | pageFault
  | x87Error
  | alignmentCheck
  | machineCheck
  | smidException
  | reserved
  | systemCall
  deriving DecidableEq, Repr

/-- Where the handlers are in memory. -/
structure Handlers where
  ignoreInt : Word
  trap : TrapStub → Word
  -- `IRQ0x00_interrupt` to `IRQ0x0f_interrupt`
  irq : Fin 16 → Word

namespace Handlers

variable (h : Handlers)

/-- `rp_sidt`, with the count in `ecx` and the entry that `edi` points to. -/
def rpSidt (eax edx : Word) : Nat → Nat → IdtTable → IdtTable
  | 0, _, idt => idt
  | ecx + 1, edi, idt => rpSidt eax edx ecx (edi + 1) (Function.update idt edi ⟨eax, edx⟩)

def setupIdt (idt : IdtTable) : IdtTable :=
  let edx := h.ignoreInt
  let eax := movw edx (kernelCs <<< 16)
  let edx := movw 0x8E00#32 edx
  rpSidt eax edx 256 0 idt

def trapInit (idt : IdtTable) : IdtTable :=
  let idt := setTrapGate 0 (h.trap .divideError) idt
  let idt := setTrapGate 1 (h.trap .debug) idt
  let idt := setTrapGate 2 (h.trap .nmi) idt
  let idt := setSystemIntrGate 3 (h.trap .int3) idt
  let idt := setSystemGate 4 (h.trap .overflow) idt
  let idt := setSystemGate 5 (h.trap .bounds) idt
  let idt := setTrapGate 6 (h.trap .invalidOp) idt
  let idt := setTrapGate 7 (h.trap .deviceNotAvailable) idt
  let idt := setTaskGate 8 (h.trap .doubleFault) idt
  let idt := setTrapGate 9 (h.trap .coprocessorSegmentOverrun) idt
  let idt := setTrapGate 10 (h.trap .invalidTss) idt
  let idt := setTrapGate 11 (h.trap .segmentNotPresent) idt
  let idt := setTrapGate 12 (h.trap .stackSegment) idt
  let idt := setTrapGate 13 (h.trap .generalProtection) idt
  let idt := setTrapGate 14 (h.trap .pageFault) idt
  let idt := setTrapGate 16 (h.trap .x87Error) idt
  let idt := setTrapGate 17 (h.trap .alignmentCheck) idt
  let idt := setTrapGate 18 (h.trap .machineCheck) idt
  let idt := setTrapGate 19 (h.trap .smidException) idt
  setSystemGate 128 (h.trap .systemCall) idt

/-- The array `interrupt`: `IRQLIST_16(0x0)`, and null behind it. -/
def interrupt (i : Nat) : Word := if hi : i < 16 then h.irq ⟨i, hi⟩ else 0#32

def nrIrqs : Nat := 224

def firstExternalVector : Nat := 0x20

def syscallVector : Nat := 0x80

/-- The loop of `init_IRQ`, from `i` on for `n` lines. -/
def initIRQLoop : Nat → Nat → IdtTable → IdtTable
  | 0, _, idt => idt
  | n + 1, i, idt =>
    let vector := firstExternalVector + i
    initIRQLoop n (i + 1)
      (if vector ≠ syscallVector then setInterruptGate vector (h.interrupt i) idt else idt)

def initIRQ (idt : IdtTable) : IdtTable := h.initIRQLoop nrIrqs 0 idt

/-- The table after booting. -/
def bootIdt (idt : IdtTable) : IdtTable := h.initIRQ (h.trapInit (h.setupIdt idt))

end Handlers

/-! ## What the processor reads -/

structure Gate where
  offset : Word
  selector : BitVec 16
  dpl : BitVec 2
  -- the descriptor is a system one (bit 4), of this type
  type : BitVec 5
  present : Bool
  deriving DecidableEq, Repr

def decodeGate (d : DescStruct) : Gate where
  offset := (d.b &&& 0xFFFF0000#32) ||| (d.a &&& 0xFFFF#32)
  selector := d.a.extractLsb' 16 16
  dpl := d.b.extractLsb' 13 2
  type := d.b.extractLsb' 8 5
  present := d.b.getLsbD 15

def interruptGate (offset : Word) : Gate := ⟨offset, kernelCs.setWidth 16, 0#2, 14#5, true⟩

/-- The address of one of the handlers. -/
def Handlers.IsCode (h : Handlers) (offset : Word) : Prop :=
  offset = h.ignoreInt ∨ (∃ t, offset = h.trap t) ∨ ∃ line, offset = h.irq line

/-- The gate of a vector leads to a handler, and that of a line to the stub of the line. -/
structure Handlers.LeadsToCode (h : Handlers) (vector : Nat) (g : Gate) : Prop where
  present : g.present = true
  selector : g.selector = kernelCs.setWidth 16
  offset : h.IsCode g.offset
  line : ∀ line : Fin 16, vector = Handlers.firstExternalVector + line →
    g = interruptGate (h.irq line)

theorem decodeGate_movw (lo hi offset : Word) :
    decodeGate ⟨movw offset hi, movw lo offset⟩ =
      ⟨offset, hi.extractLsb' 16 16, lo.extractLsb' 13 2, lo.extractLsb' 8 5, lo.getLsbD 15⟩ := by
  unfold decodeGate
  congr 1
  · ext i hi
    interval_cases i <;> simp [movw]
  · ext i hi
    interval_cases i <;> simp [movw]
  · ext i hi
    interval_cases i <;> simp [movw]
  · ext i hi
    interval_cases i <;> simp [movw]
  · simp [movw]

/-- **`set_gate` encodes its arguments**, whatever the offset is. -/
theorem decodeGate_setGate (dpl : BitVec 2) (type : BitVec 4) (offset : Word) :
    decodeGate (setGate (dpl.setWidth 32) (type.setWidth 32) offset) =
      ⟨offset, kernelCs.setWidth 16, dpl, type.setWidth 5, true⟩ := by
  have hfields : ∀ (dpl : BitVec 2) (type : BitVec 4),
      let ebx := 0x8000#32 + dpl.setWidth 32 <<< 13 + type.setWidth 32 <<< 8
      ebx.extractLsb' 13 2 = dpl ∧ ebx.extractLsb' 8 5 = type.setWidth 5 ∧
        ebx.getLsbD 15 = true := by decide
  obtain ⟨hdpl, htype, hpresent⟩ := hfields dpl type
  unfold setGate
  rw [decodeGate_movw, hdpl, htype, hpresent]
  rfl

namespace Handlers

variable (h : Handlers) (idt : IdtTable)

/-! ## The entries of the table -/

theorem rpSidt_apply (eax edx : Word) (n edi : Nat) (idt : IdtTable) (v : Nat) :
    rpSidt eax edx n edi idt v = if edi ≤ v ∧ v < edi + n then ⟨eax, edx⟩ else idt v := by
  induction n generalizing edi idt with
  | zero => rw [rpSidt, if_neg (by omega)]
  | succ n ih =>
    rw [rpSidt, ih, Function.update_apply]
    split_ifs <;> first | rfl | omega

theorem decodeGate_setupIdt {v : Nat} (hv : v < 256) :
    decodeGate (h.setupIdt idt v) = interruptGate h.ignoreInt := by
  rw [setupIdt, rpSidt_apply, if_pos ⟨Nat.zero_le v, by omega⟩, decodeGate_movw]
  rfl

theorem initIRQLoop_apply (n i : Nat) (idt : IdtTable) (v : Nat) :
    h.initIRQLoop n i idt v =
      if firstExternalVector + i ≤ v ∧ v < firstExternalVector + i + n ∧ v ≠ syscallVector then
        setGate 0#32 14#32 (h.interrupt (v - firstExternalVector))
      else idt v := by
  induction n generalizing i idt with
  | zero => rw [initIRQLoop, if_neg (by omega)]
  | succ n ih =>
    unfold initIRQLoop
    dsimp only
    rw [ih]
    by_cases hv : v = firstExternalVector + i
    · rw [if_neg (by omega), hv, Nat.add_sub_cancel_left]
      split_ifs with hset hrange hrange
      · exact Function.update_self ..
      · exact absurd ⟨Nat.le_refl _, by omega, hset⟩ hrange
      · exact absurd hrange.2.2 hset
      · rfl
    · have hkeep : (if firstExternalVector + i ≠ syscallVector then
          setInterruptGate (firstExternalVector + i) (h.interrupt i) idt else idt) v = idt v := by
        split_ifs
        · exact Function.update_of_ne hv _ _
        · rfl
      rw [hkeep]
      exact if_congr (by omega) rfl rfl

theorem bootIdt_external {v : Nat} (hv : v < 256) (hlow : 0x20 ≤ v) (hne : v ≠ 0x80) :
    h.bootIdt idt v = setGate 0#32 14#32 (h.interrupt (v - 0x20)) := by
  rw [bootIdt, initIRQ, initIRQLoop_apply]
  exact if_pos ⟨hlow, hv, hne⟩

theorem bootIdt_internal {v : Nat} (hv : v < 0x20 ∨ v = 0x80) :
    h.bootIdt idt v = h.trapInit (h.setupIdt idt) v := by
  rw [bootIdt, initIRQ, initIRQLoop_apply]
  apply if_neg
  rintro ⟨hlow, -, hne⟩
  exact hv.elim (Nat.not_lt.mpr hlow) hne

theorem exists_trapInit {v : Nat} (hv : v < 20 ∨ v = 128) (hne : v ≠ 8 ∧ v ≠ 15) :
    ∃ (dpl : BitVec 2) (type : BitVec 4) (t : TrapStub),
      h.trapInit idt v = setGate (dpl.setWidth 32) (type.setWidth 32) (h.trap t) := by
  rcases hv with hv | rfl
  · obtain ⟨h8, h15⟩ := hne
    interval_cases v <;> first
      | contradiction
      | exact ⟨0#2, 15#4, _, rfl⟩
      | exact ⟨3#2, 15#4, _, rfl⟩
      | exact ⟨3#2, 14#4, _, rfl⟩
  · exact ⟨3#2, 15#4, _, rfl⟩

theorem trapInit_other {v : Nat} (hv : v = 15 ∨ 20 ≤ v ∧ v ≠ 128) :
    h.trapInit idt v = idt v := by
  simp (disch := omega) only [trapInit, setTrapGate, setSystemGate, setSystemIntrGate, setTaskGate,
    Function.update_of_ne]

variable {h}

theorem LeadsToCode.of_setGate {v : Nat} (dpl : BitVec 2) (type : BitVec 4) {offset : Word}
    (hcode : h.IsCode offset)
    (hline : ∀ line : Fin 16, v = firstExternalVector + line →
      dpl = 0#2 ∧ type = 14#4 ∧ offset = h.irq line) :
    h.LeadsToCode v (decodeGate (setGate (dpl.setWidth 32) (type.setWidth 32) offset)) := by
  rw [decodeGate_setGate]
  constructor
  · rfl
  · rfl
  · exact hcode
  · intro line hv
    obtain ⟨rfl, rfl, rfl⟩ := hline line hv
    rfl

theorem not_leadsToCode_null (hnull : ¬ h.IsCode 0#32) {v : Nat} (dpl : BitVec 2)
    (type : BitVec 4) :
    ¬ h.LeadsToCode v (decodeGate (setGate (dpl.setWidth 32) (type.setWidth 32) 0#32)) := by
  intro hleads
  have hoffset := hleads.offset
  rw [decodeGate_setGate] at hoffset
  exact hnull hoffset

/-- **The vectors that lead to code.** Wherever the handlers are, those of a double fault and of the
lines that have no stub do not. -/
theorem leadsToCode_bootIdt_iff (h : Handlers) (idt : IdtTable) (hnull : ¬ h.IsCode 0#32)
    (vector : Fin 256) :
    h.LeadsToCode vector (decodeGate (h.bootIdt idt vector)) ↔
      vector.val ≠ 8 ∧ (vector.val < 0x30 ∨ vector.val = 0x80) := by
  obtain ⟨v, hv⟩ := vector
  dsimp only
  by_cases hinternal : v < 0x20 ∨ v = 0x80
  · have hnoline : ∀ line : Fin 16, v ≠ firstExternalVector + line := by
      intro line
      have : firstExternalVector = 0x20 := rfl
      omega
    rw [bootIdt_internal h idt hinternal]
    by_cases h8 : v = 8
    · rw [h8]
      exact iff_of_false (not_leadsToCode_null hnull 0#2 3#4) (by decide)
    · refine iff_of_true ?_ ⟨h8, by omega⟩
      by_cases hdefault : v = 15 ∨ 20 ≤ v ∧ v ≠ 128
      · rw [trapInit_other h _ hdefault, decodeGate_setupIdt h idt hv]
        exact ⟨rfl, rfl, Or.inl rfl, fun line hline ↦ absurd hline (hnoline line)⟩
      · obtain ⟨dpl, type, t, heq⟩ :=
          exists_trapInit h (h.setupIdt idt) (v := v) (by omega) ⟨h8, by omega⟩
        rw [heq]
        exact .of_setGate dpl type (Or.inr (Or.inl ⟨t, rfl⟩))
          fun line hline ↦ absurd hline (hnoline line)
  · rw [bootIdt_external h idt hv (by omega) (by omega)]
    by_cases hline : v - 0x20 < 16
    · refine iff_of_true ?_ (by omega)
      rw [interrupt, dif_pos hline]
      refine .of_setGate 0#2 14#4 (Or.inr (Or.inr ⟨_, rfl⟩)) fun line heq ↦ ⟨rfl, rfl, ?_⟩
      congr 1
      have hfirst : firstExternalVector = 0x20 := rfl
      exact Fin.ext (by simp only; omega)
    · rw [interrupt, dif_neg hline]
      exact iff_of_false (not_leadsToCode_null hnull 0#2 14#4) (by omega)

/-- Stubs of 16 bytes from 3 GB on. -/
def packed : Handlers where
  ignoreInt := 0xC0000000#32
  trap _ := 0xC0000010#32
  irq line := 0xC0000020#32 + BitVec.ofNat 32 (16 * line)

theorem not_isCode_packed_null : ¬ packed.IsCode 0#32 := by
  rintro (h | ⟨t, h⟩ | ⟨line, h⟩)
  · exact absurd h (by decide)
  · exact absurd h (show 0#32 ≠ 0xC0000010#32 by decide)
  · revert line
    decide

/-- The gate of the timer. -/
theorem leadsToCode_packed_timer :
    packed.LeadsToCode 0x20 (decodeGate (packed.bootIdt (fun _ ↦ ⟨0#32, 0#32⟩) 0x20)) :=
  (leadsToCode_bootIdt_iff packed (fun _ ↦ ⟨0#32, 0#32⟩) not_isCode_packed_null 0x20).mpr (by decide)

/-- Vector 0x30 leads to address 0. -/
theorem not_forall_leadsToCode :
    ¬ ∀ (h : Handlers) (idt : IdtTable), ¬ h.IsCode 0#32 → ∀ vector : Fin 256,
      h.LeadsToCode vector (decodeGate (h.bootIdt idt vector)) := by
  intro hall
  have hgate := (hall packed (fun _ ↦ ⟨0#32, 0#32⟩) not_isCode_packed_null 0x30).offset
  rw [show (0x30 : Fin 256).val = 0x30 from rfl,
    bootIdt_external packed _ (by decide) (by decide) (by decide)] at hgate
  exact not_isCode_packed_null hgate

end Handlers

end AphroditeOs
