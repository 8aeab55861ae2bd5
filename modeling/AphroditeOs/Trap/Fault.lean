import AphroditeOs.Irq.Dispatch
import AphroditeOs.Lib.Progress
import AphroditeOs.Trap.Gates
import AphroditeOs.Trap.SysCall

/-!
# Interrupts under the descriptor tables (`boot/head.S`, `boot/loader.s`)

The entry code of exceptions and of the lines loads `ds` and `es` with constants, and the gates load
`cs` with one.  All of it happens in ring 0; there is no local table, no task gate and no gate of 16
bits.
-/

namespace AphroditeOs

/-! ## Loads of selectors -/

/-- The exceptions that a load of a selector can raise. -/
inductive SegmentFault where
  | generalProtection
  | segmentNotPresent
  deriving DecidableEq, Repr

def SegmentFault.stub : SegmentFault → Stub
  | .generalProtection => .generalProtection
  | .segmentNotPresent => .segmentNotPresent

/-- The quad words of a global descriptor table. -/
abbrev GdtTable := List (BitVec 64)

namespace GdtTable

def isPresent (d : BitVec 64) : Bool := d.getLsbD 47

def dpl (d : BitVec 64) : BitVec 2 := d.extractLsb' 45 2

/-- Not a system descriptor. -/
def isSegment (d : BitVec 64) : Bool := d.getLsbD 44

def isCode (d : BitVec 64) : Bool := isSegment d && d.getLsbD 43

def isConforming (d : BitVec 64) : Bool := isCode d && d.getLsbD 42

/-- A data segment, or a code segment that may be read. -/
def isReadable (d : BitVec 64) : Bool := isSegment d && (!isCode d || d.getLsbD 41)

def isNull (selector : BitVec 16) : Bool := selector &&& 0xFFFC#16 = 0#16

def lookup (gdt : GdtTable) (selector : BitVec 16) : Option (BitVec 64) :=
  if selector.getLsbD 2 then none else gdt[(selector >>> 3).toNat]?

/-- What a load of `ds` or `es` raises, if anything. -/
def loadData (gdt : GdtTable) (selector : BitVec 16) : Option SegmentFault :=
  if isNull selector then none
  else match gdt.lookup selector with
    | none => some .generalProtection
    | some d =>
      if !isReadable d || (!isConforming d && dpl d < selector.setWidth 2) then
        some .generalProtection
      else if !isPresent d then some .segmentNotPresent
      else none

/-- What a load of `cs` through a gate raises, if anything. -/
def loadCode (gdt : GdtTable) (selector : BitVec 16) : Option SegmentFault :=
  if isNull selector then some .generalProtection
  else match gdt.lookup selector with
    | none => some .generalProtection
    | some d =>
      if !isCode d || 0#2 < dpl d then some .generalProtection
      else if !isPresent d then some .segmentNotPresent
      else none

end GdtTable

/-- An instruction, with the check of the selector that it loads. -/
def execChecked (gdt : GdtTable) (m : Machine) (i : Instr) : Except SegmentFault Machine :=
  match i with
  | .movSeg _ r => (gdt.loadData ((m.reg r).setWidth 16)).elim (.ok (exec m i)) .error
  | .popSeg _ => (gdt.loadData (m.stack.pop.1.setWidth 16)).elim (.ok (exec m i)) .error
  | _ => .ok (exec m i)

def runChecked (gdt : GdtTable) (code : List Instr) (m : Machine) : Except SegmentFault Machine :=
  code.foldlM (execChecked gdt) m

/-! ## The entry code -/

/-- `SAVE_ALL` of `irq.c`. -/
def saveAll : List Instr :=
  [.cld, .push (.seg .es), .push (.seg .ds), .push (.reg .eax), .push (.reg .ebp),
    .push (.reg .edi), .push (.reg .esi), .push (.reg .edx), .push (.reg .ecx), .push (.reg .ebx),
    .mov .edx 0x18#32, .movSeg .ds .edx, .movSeg .es .edx]

/-- `IRQ0x..._interrupt` and `common_interrupt`, up to `jmp do_IRQ`. -/
def irqInterrupt (retFromIntr : Word) (line : Fin 16) : List Instr :=
  .push (.imm (pushedIrq line)) :: (saveAll ++ [.push (.imm retFromIntr)])

/-- What a gate leads to. -/
inductive Entry where
  | trap (stub : Stub)
  | irq (line : Fin 16)
  deriving DecidableEq, Repr

def Stub.trapStub : Stub → TrapStub
  | .divideError => .divideError
  | .debug => .debug
  | .nmi => .nmi
  | .int3 => .int3
  | .overflow => .overflow
  | .bounds => .bounds
  | .invalidOp => .invalidOp
  | .deviceNotAvailable => .deviceNotAvailable
  | .doubleFault => .doubleFault
  | .coprocessorSegmentOverrun => .coprocessorSegmentOverrun
  | .invalidTss => .invalidTss
  | .segmentNotPresent => .segmentNotPresent
  | .stackSegment => .stackSegment
  | .generalProtection => .generalProtection
  | .pageFault => .pageFault
  | .x87Error => .x87Error
  | .alignmentCheck => .alignmentCheck
  | .machineCheck => .machineCheck
  | .smidException => .smidException
  | .systemCall => .systemCall

def Handlers.addr (h : Handlers) : Entry → Word
  | .trap stub => h.trap stub.trapStub
  | .irq line => h.irq line

/-- Where the C functions and the label `ret_from_intr` are. -/
structure Symbols where
  handler : Handler → Word
  retFromIntr : Word

/-- The code of an entry, up to `call edi` or `jmp do_IRQ`. -/
def Entry.code (sym : Symbols) : Entry → List Instr
  | .trap stub => stub.code sym.handler ++ errorCode
  | .irq line => irqInterrupt sym.retFromIntr line

/-- The constant that the code of an entry loads `ds` with. -/
def Entry.dataSelector : Entry → BitVec 16
  | .trap _ => userDs.setWidth 16
  | .irq _ => 0x18#16

/-! ## The processor -/

def Stub.vector : Stub → Nat
  | .divideError => 0
  | .debug => 1
  | .nmi => 2
  | .int3 => 3
  | .overflow => 4
  | .bounds => 5
  | .invalidOp => 6
  | .deviceNotAvailable => 7
  | .doubleFault => 8
  | .coprocessorSegmentOverrun => 9
  | .invalidTss => 10
  | .segmentNotPresent => 11
  | .stackSegment => 12
  | .generalProtection => 13
  | .pageFault => 14
  | .x87Error => 16
  | .alignmentCheck => 17
  | .machineCheck => 18
  | .smidException => 19
  | .systemCall => 128

def Entry.vector : Entry → Nat
  | .trap stub => stub.vector
  | .irq line => Handlers.firstExternalVector + line

/-- The exceptions that make a double fault of a fault on their way. -/
def Stub.isContributory : Stub → Bool
  | .divideError | .invalidTss | .segmentNotPresent | .stackSegment | .generalProtection
  | .pageFault => true
  | _ => false

/-- What comes of a fault on the way of `e`; `none` is the shutdown. -/
def Entry.escalate (f : SegmentFault) : Entry → Option Entry
  | .trap .doubleFault => none
  | .trap stub => some (.trap (if stub.isContributory then .doubleFault else f.stub))
  | .irq _ => some (.trap f.stub)

/-- Whether the processor pushes an error code. -/
def Entry.cpuErrorCode : Entry → Bool
  | .trap stub => stub.cpuErrorCode
  | .irq _ => false

/-- What a gate raises, if anything. -/
def Gate.check (gdt : GdtTable) (g : Gate) : Option SegmentFault :=
  if g.type ≠ 14#5 ∧ g.type ≠ 15#5 then some .generalProtection
  else if g.present = false then some .segmentNotPresent
  else gdt.loadCode g.selector

/-- `deliver e` is on the way to the entry `e`; `running e code` has `code` left to run of it. -/
inductive Processor where
  | deliver (e : Entry) (m : Machine)
  | running (e : Entry) (code : List Instr) (m : Machine)
  | shutdown

/-- The machine and what is in memory for it. -/
structure Platform where
  gdt : GdtTable
  idt : IdtTable
  handlers : Handlers
  sym : Symbols

def Platform.gate (P : Platform) (e : Entry) : Gate := decodeGate (P.idt e.vector)

/-- The frame of the processor; what it saves depends on the code that was interrupted. -/
def Machine.pushFrame (m : Machine) (e : Entry) (eflags cs eip code : Word) : Machine :=
  { m with stack := m.stack.pushAll ([eflags, cs, eip] ++ if e.cpuErrorCode then [code] else []) }

/-- A step; further lines and NMI may come between any two instructions. -/
inductive ProcessorStep (P : Platform) : Processor → Processor → Prop
  | enter {e e' : Entry} {m : Machine} (eflags cs eip code : Word) :
      (P.gate e).check P.gdt = none → P.handlers.addr e' = (P.gate e).offset →
      ProcessorStep P (.deliver e m) (.running e' (e'.code P.sym) (m.pushFrame e eflags cs eip code))
  | escalate {e e' : Entry} {f : SegmentFault} {m : Machine} :
      (P.gate e).check P.gdt = some f → e.escalate f = some e' →
      ProcessorStep P (.deliver e m) (.deliver e' m)
  | shutdown {e : Entry} {f : SegmentFault} {m : Machine} :
      (P.gate e).check P.gdt = some f → e.escalate f = none →
      ProcessorStep P (.deliver e m) .shutdown
  | exec {e : Entry} {i : Instr} {code : List Instr} {m m' : Machine} :
      execChecked P.gdt m i = .ok m' → ProcessorStep P (.running e (i :: code) m) (.running e code m')
  | fault {e : Entry} {i : Instr} {code : List Instr} {m : Machine} {f : SegmentFault} :
      execChecked P.gdt m i = .error f →
      ProcessorStep P (.running e (i :: code) m) (.deliver (.trap f.stub) m)
  | interrupt {e : Entry} {i : Instr} {code : List Instr} {m : Machine} (line : Fin 16) :
      ProcessorStep P (.running e (i :: code) m) (.deliver (.irq line) m)
  | nmi {e : Entry} {i : Instr} {code : List Instr} {m : Machine} :
      ProcessorStep P (.running e (i :: code) m) (.deliver (.trap .nmi) m)

/-! ## Checked runs -/

theorem runChecked_append (gdt : GdtTable) (code code' : List Instr) (m : Machine) :
    runChecked gdt (code ++ code') m = (runChecked gdt code m).bind (runChecked gdt code') :=
  List.foldlM_append

/-- The instruction loads no selector. -/
def Instr.isPlain : Instr → Bool
  | .movSeg _ _ | .popSeg _ => false
  | _ => true

theorem execChecked_plain (gdt : GdtTable) (m : Machine) {i : Instr} (h : i.isPlain = true) :
    execChecked gdt m i = .ok (exec m i) := by
  cases i with
  | movSeg => contradiction
  | popSeg => contradiction
  | _ => rfl

theorem runChecked_plain (gdt : GdtTable) {code : List Instr} (h : code.all Instr.isPlain = true)
    (m : Machine) : runChecked gdt code m = .ok (run code m) := by
  induction code generalizing m with
  | nil => rfl
  | cons i code ih =>
    rw [List.all_cons, Bool.and_eq_true] at h
    unfold runChecked
    rw [List.foldlM_cons, execChecked_plain gdt m h.1]
    exact ih h.2 (exec m i)

/-- Code around its loads of `ds` and `es` with a constant. -/
structure LoadsConstant (code pre post : List Instr) (r : Reg) (v : Word) : Prop where
  eq : code = pre ++ .movSeg .ds r :: .movSeg .es r :: post
  value : ∀ m, (run pre m).reg r = v
  pre : pre.all Instr.isPlain = true
  post : post.all Instr.isPlain = true

section

variable {gdt : GdtTable} {code pre post : List Instr} {r : Reg} {v : Word}

theorem LoadsConstant.runChecked_of_some (h : LoadsConstant code pre post r v) {f : SegmentFault}
    (hload : gdt.loadData (v.setWidth 16) = some f) (m : Machine) :
    execChecked gdt (run pre m) (.movSeg .ds r) = .error f := by
  unfold execChecked
  dsimp only
  rw [h.value, hload]
  rfl

/-- The one check of the code is that of the constant. -/
theorem LoadsConstant.runChecked_eq (h : LoadsConstant code pre post r v) (m : Machine) :
    runChecked gdt code m = (gdt.loadData (v.setWidth 16)).elim (.ok (run code m)) .error := by
  rw [h.eq, runChecked_append, runChecked_plain gdt h.pre]
  unfold Except.bind
  dsimp only
  cases hload : gdt.loadData (v.setWidth 16) with
  | some f =>
    unfold runChecked
    rw [List.foldlM_cons, h.runChecked_of_some hload]
    rfl
  | none =>
    have hds : execChecked gdt (run pre m) (.movSeg .ds r) =
        .ok (exec (run pre m) (.movSeg .ds r)) := by
      unfold execChecked
      dsimp only
      rw [h.value, hload]
      rfl
    have hes : execChecked gdt (exec (run pre m) (.movSeg .ds r)) (.movSeg .es r) =
        .ok (exec (exec (run pre m) (.movSeg .ds r)) (.movSeg .es r)) := by
      unfold execChecked
      dsimp only
      rw [show (exec (run pre m) (.movSeg .ds r)).reg = (run pre m).reg from rfl, h.value, hload]
      rfl
    unfold runChecked
    rw [List.foldlM_cons, hds]
    show List.foldlM _ _ _ = _
    rw [List.foldlM_cons, hes]
    show runChecked gdt post _ = _
    rw [runChecked_plain gdt h.post, run_append]
    rfl

end

/-- What an entry runs before it loads `ds`. -/
def Entry.prologue (sym : Symbols) : Entry → List Instr
  | .trap stub => stub.code sym.handler ++ (errorCodePushes ++
      [.pop .ecx, .load .edi offEs, .load .edx offOrigEax, .store offOrigEax .eax,
        .store offEs .ecx, .mov .ecx userDs])
  | .irq line => .push (.imm (pushedIrq line)) :: saveAll.take 11

theorem loadsConstant_code (sym : Symbols) (e : Entry) : ∃ post r v, v.setWidth 16 = e.dataSelector ∧
    LoadsConstant (e.code sym) (e.prologue sym) post r v := by
  cases e with
  | trap stub =>
    refine ⟨[.movFromEsp .eax], .ecx, userDs, rfl, ?_, ?_, ?_, rfl⟩
    · simp [Entry.code, Entry.prologue, errorCode, errorCodeSwap]
    · intro m
      unfold Entry.prologue
      rw [run_append, run_append]
      rfl
    · cases stub <;> rfl
  | irq line =>
    refine ⟨[.push (.imm sym.retFromIntr)], .edx, 0x18#32, rfl, rfl, fun m ↦ rfl, rfl, rfl⟩

theorem runChecked_code (gdt : GdtTable) (sym : Symbols) (e : Entry) (m : Machine) :
    runChecked gdt (e.code sym) m =
      (gdt.loadData e.dataSelector).elim (.ok (run (e.code sym) m)) .error := by
  obtain ⟨post, r, v, hv, h⟩ := loadsConstant_code sym e
  rw [h.runChecked_eq, hv]

/-! ## The depth of the stack -/

/-- What an instruction adds to `esp`. -/
def Instr.moves : Instr → Word
  | .push _ => -4#32
  | .pop _ | .popSeg _ => 4#32
  | .addEsp v => v
  | _ => 0#32

theorem esp_exec (m : Machine) (i : Instr) : (exec m i).stack.esp = m.stack.esp + i.moves := by
  cases i with
  | push => exact BitVec.sub_eq_add_neg _ _
  | pop => rfl
  | popSeg => rfl
  | addEsp => rfl
  | _ => exact (BitVec.add_zero _).symm

theorem esp_run (code : List Instr) (m : Machine) :
    (run code m).stack.esp = m.stack.esp + (code.map Instr.moves).sum := by
  induction code generalizing m with
  | nil => exact (BitVec.add_zero _).symm
  | cons i code ih =>
    rw [run_cons, ih, esp_exec, List.map_cons, List.sum_cons, BitVec.add_assoc]

/-- The bytes that an entry and the processor push before the load of `ds`. -/
def Entry.depth : Entry → Nat
  | .trap _ => 88
  | .irq _ => 52

theorem sum_moves_prologue (sym : Symbols) (e : Entry) :
    ((e.prologue sym).map Instr.moves).sum =
      BitVec.ofNat 32 (if e.cpuErrorCode then 16 else 12) - BitVec.ofNat 32 e.depth := by
  cases e with
  | trap stub =>
    have hpushes : (errorCodePushes.map Instr.moves).sum = -72#32 := by decide
    have hrest : ([.pop .ecx, .load .edi offEs, .load .edx offOrigEax, .store offOrigEax .eax,
        .store offEs .ecx, .mov .ecx userDs].map Instr.moves).sum = 4#32 := by decide
    have hstub : ((stub.code sym.handler).map Instr.moves).sum =
        if stub.cpuErrorCode then -4#32 else -8#32 := by
      cases stub <;> simp [Stub.code, pushNoCode, pushHandler, Instr.moves, Stub.cpuErrorCode]
    rw [Entry.prologue, List.map_append, List.sum_append, List.map_append, List.sum_append, hstub,
      hpushes, hrest]
    show _ = BitVec.ofNat 32 (if stub.cpuErrorCode then 16 else 12) - 88#32
    cases stub.cpuErrorCode <;> decide
  | irq line =>
    have hsave : ((saveAll.take 11).map Instr.moves).sum = -36#32 := by decide
    rw [Entry.prologue, List.map_cons, List.sum_cons, hsave]
    show -4#32 + -36#32 = 12#32 - 52#32
    decide

theorem esp_prologue (sym : Symbols) (e : Entry) (m : Machine) (eflags cs eip code : Word) :
    (run (e.prologue sym) (m.pushFrame e eflags cs eip code)).stack.esp =
      m.stack.esp - BitVec.ofNat 32 e.depth := by
  have hframe := DwordStack.esp_pushAll
    ([eflags, cs, eip] ++ if e.cpuErrorCode then [code] else []) m.stack
  rw [esp_run, sum_moves_prologue, Machine.pushFrame]
  dsimp only
  rw [hframe]
  cases e.cpuErrorCode with
  | false =>
    show _ - 12#32 + (12#32 - _) = _
    bv_omega
  | true =>
    show _ - 16#32 + (16#32 - _) = _
    bv_omega

end AphroditeOs
