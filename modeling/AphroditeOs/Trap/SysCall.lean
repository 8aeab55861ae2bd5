import AphroditeOs.Trap.Machine

/-!
# Exception entry and return (`kernel/sys_call.asm`, `include/linux/ptrace.h`)

The stubs, `error_code`, and the way back through `ret_from_exception`.
-/

namespace AphroditeOs

/-! ## The code -/

def offEbx : Nat := 0x00
def offEcx : Nat := 0x04
def offEdx : Nat := 0x08
def offEsi : Nat := 0x0C
def offEdi : Nat := 0x10
def offEbp : Nat := 0x14
def offEax : Nat := 0x18
def offDs : Nat := 0x1C
def offEs : Nat := 0x20
def offOrigEax : Nat := 0x24
def offEip : Nat := 0x28
def offCs : Nat := 0x2C
def offEflags : Nat := 0x30

def userDs : Word := 0x2B#32

/-- The C handlers that the stubs push. -/
inductive Handler where
  | doDivideError
  | doDebug
  | doNmi
  | doInt3
  | doOverflow
  | doBounds
  | doInvalidOp
  | doDeviceNotAvailable
  | doDoubleFault
  | doCoprocessorSegmentOverrun
  | doInvalidTss
  | doSegmentNotPresent
  | doStackSegment
  | doGeneralProtection
  | doPageFault
  | doX87Error
  | doAlignmentCheck
  | doSmidException
  | doSystemCall
  deriving DecidableEq, Repr

inductive Stub where
  | divideError
  | debug
  | nmi
  | int3
  | overflow
  | bounds
  | invalidOp
  | deviceNotAvailable
  | doubleFault
  | coprocessorSegmentOverrun
  | invalidTss
  | segmentNotPresent
  | stackSegment
  | generalProtection
  | pageFault
  | x87Error
  | alignmentCheck
  | machineCheck
  | smidException
  | systemCall
  deriving DecidableEq, Repr

def Stub.handler : Stub → Handler
  | .divideError => .doDivideError
  | .debug => .doDebug
  | .nmi => .doNmi
  | .int3 => .doInt3
  | .overflow => .doOverflow
  | .bounds => .doBounds
  | .invalidOp => .doInvalidOp
  | .deviceNotAvailable => .doDeviceNotAvailable
  | .doubleFault => .doDoubleFault
  | .coprocessorSegmentOverrun => .doCoprocessorSegmentOverrun
  | .invalidTss => .doInvalidTss
  | .segmentNotPresent => .doSegmentNotPresent
  | .stackSegment => .doStackSegment
  | .generalProtection => .doGeneralProtection
  | .pageFault => .doPageFault
  | .x87Error => .doX87Error
  | .alignmentCheck => .doAlignmentCheck
  -- `machine_check` pushes `do_alignment_check` as well
  | .machineCheck => .doAlignmentCheck
  | .smidException => .doSmidException
  | .systemCall => .doSystemCall

/-- The exceptions for which the CPU pushes an error code; their stubs push none. -/
def Stub.cpuErrorCode : Stub → Bool
  | .doubleFault | .invalidTss | .segmentNotPresent | .stackSegment | .generalProtection
  | .pageFault | .alignmentCheck => true
  | _ => false

/-- `push 0`, for no error code, and `push` of the handler. -/
def pushNoCode (handler : Word) : List Instr := [.push (.imm 0#32), .push (.imm handler)]

def pushHandler (handler : Word) : List Instr := [.push (.imm handler)]

/-- A stub up to `error_code`; `sym` places the handlers. -/
def Stub.code (sym : Handler → Word) : Stub → List Instr
  -- runs into `error_code`, where the others jump
  | .divideError => pushNoCode (sym .doDivideError) ++ [.nop]
  | .debug => pushNoCode (sym .doDebug)
  | .nmi => pushNoCode (sym .doNmi)
  | .int3 => pushNoCode (sym .doInt3)
  | .overflow => pushNoCode (sym .doOverflow)
  | .bounds => pushNoCode (sym .doBounds)
  | .invalidOp => pushNoCode (sym .doInvalidOp)
  | .deviceNotAvailable => pushNoCode (sym .doDeviceNotAvailable)
  | .doubleFault => pushHandler (sym .doDoubleFault)
  | .coprocessorSegmentOverrun => pushNoCode (sym .doCoprocessorSegmentOverrun)
  | .invalidTss => pushHandler (sym .doInvalidTss)
  | .segmentNotPresent => pushHandler (sym .doSegmentNotPresent)
  | .stackSegment => pushHandler (sym .doStackSegment)
  | .generalProtection => pushHandler (sym .doGeneralProtection)
  | .pageFault => pushHandler (sym .doPageFault)
  | .x87Error => pushNoCode (sym .doX87Error)
  | .alignmentCheck => pushHandler (sym .doAlignmentCheck)
  | .machineCheck => pushNoCode (sym .doAlignmentCheck)
  | .smidException => pushNoCode (sym .doSmidException)
  | .systemCall => pushNoCode (sym .doSystemCall)

/-- The pushes of `error_code`. -/
def errorCodePushes : List Instr :=
  [.push (.seg .ds), .push (.reg .eax), .xor .eax .eax, .push (.reg .ebp), .push (.reg .edi),
    .push (.reg .esi), .push (.reg .edx), .dec .eax, .push (.reg .ecx), .push (.reg .ebx), .cld,
    .push (.seg .es),
    -- the sequence once more
    .push (.seg .ds), .push (.reg .eax), .xor .eax .eax, .dec .eax, .push (.reg .ebp),
    .push (.reg .edi), .push (.reg .esi), .push (.reg .edx), .push (.reg .ecx), .push (.reg .ebx),
    .push (.seg .es), .cld]

/-- `error_code` after the pushes, up to its `call edi`. -/
def errorCodeSwap : List Instr :=
  [.pop .ecx, .load .edi offEs, .load .edx offOrigEax, .store offOrigEax .eax, .store offEs .ecx,
    .mov .ecx userDs, .movSeg .ds .ecx, .movSeg .es .ecx, .movFromEsp .eax]

def errorCode : List Instr := errorCodePushes ++ errorCodeSwap

def restoreAll : List Instr :=
  [.pop .ebx, .pop .ecx, .pop .edx, .pop .esi, .pop .edi, .pop .ebp, .pop .eax, .popSeg .ds,
    .popSeg .es, .addEsp 4#32]

def resumeKernel : List Instr := restoreAll

def resumeUserspace : List Instr := restoreAll

/-- The test of `ret_from_intr` for a return to user space. -/
def testMode : List Instr :=
  [.mov .ebp 0xFFFFE000#32, .andEsp .ebp, .load .eax offEflags, .loadLow .eax offCs,
    .test .eax 0x00020003#32]

/-- From `ret_from_intr` to the `iret`. -/
def retFromIntr (m : Machine) : Machine :=
  if (run testMode m).zf then run resumeKernel (run testMode m)
  else run resumeUserspace (run testMode m)

def retFromException (m : Machine) : Machine := retFromIntr (exec m .cli)

/-! ## The round trip -/

/-- What an exception interrupts; `code` is the error code of the CPU. -/
structure Interrupted where
  reg : Reg → Word
  seg : Seg → BitVec 16
  eip : Word
  cs : Word
  eflags : Word
  code : Word

/-- The CPU enters a stub, with `stack` the kernel stack before it pushes `eflags`; `ss` and `esp` of
an exception in user mode are on it. -/
def Interrupted.enter (i : Interrupted) (stub : Stub) (stack : DwordStack) : Machine where
  reg := i.reg
  seg := i.seg
  zf := false
  stack := stack.pushAll ([i.eflags, i.cs, i.eip] ++ if stub.cpuErrorCode then [i.code] else [])

def eipAddr (stack : DwordStack) : Word := stack.esp - 12#32

/-- The machine at the `call edi` of `error_code`. -/
def atCall (sym : Handler → Word) (i : Interrupted) (stub : Stub) (stack : DwordStack) : Machine :=
  run errorCode (run (stub.code sym) (i.enter stub stack))

/-- The words from `addr` on are a `struct pt_regs` of what was interrupted; `ds` and `es` are
`short`s. -/
structure PtRegs (mem : Word → Word) (addr : Word) (i : Interrupted) : Prop where
  ebx : mem (addr + BitVec.ofNat 32 offEbx) = i.reg .ebx
  ecx : mem (addr + BitVec.ofNat 32 offEcx) = i.reg .ecx
  edx : mem (addr + BitVec.ofNat 32 offEdx) = i.reg .edx
  esi : mem (addr + BitVec.ofNat 32 offEsi) = i.reg .esi
  edi : mem (addr + BitVec.ofNat 32 offEdi) = i.reg .edi
  ebp : mem (addr + BitVec.ofNat 32 offEbp) = i.reg .ebp
  eax : mem (addr + BitVec.ofNat 32 offEax) = i.reg .eax
  ds : (mem (addr + BitVec.ofNat 32 offDs)).setWidth 16 = i.seg .ds
  es : (mem (addr + BitVec.ofNat 32 offEs)).setWidth 16 = i.seg .es
  origEax : mem (addr + BitVec.ofNat 32 offOrigEax) = -1#32
  eip : mem (addr + BitVec.ofNat 32 offEip) = i.eip
  cs : mem (addr + BitVec.ofNat 32 offCs) = i.cs
  eflags : mem (addr + BitVec.ofNat 32 offEflags) = i.eflags

/-- A handler called in `m` may come back in `t`: `esp` is as before the call, and the frame from
`ebx` to `eflags` has not changed. -/
def HandlerReturns (m t : Machine) : Prop :=
  t.stack.esp = m.stack.esp ∧
    ∀ k ≤ offEflags / 4, t.stack.mem (m.stack.slot k) = m.stack.mem (m.stack.slot k)

structure RoundTrip (sym : Handler → Word) (i : Interrupted) (stub : Stub) (stack : DwordStack) :
    Prop where
  target : (atCall sym i stub stack).reg .edi = sym stub.handler
  errorCode : (atCall sym i stub stack).reg .edx = if stub.cpuErrorCode then i.code else 0#32
  regs : PtRegs (atCall sym i stub stack).stack.mem ((atCall sym i stub stack).reg .eax) i
  back : ∀ t, HandlerReturns (atCall sym i stub stack) t →
    (retFromException t).reg = i.reg ∧ (retFromException t).seg = i.seg ∧
      (retFromException t).stack.esp = eipAddr stack

/-! ## What the code does -/

def stubFrame (sym : Handler → Word) (i : Interrupted) (stub : Stub) : List Word :=
  [sym stub.handler, if stub.cpuErrorCode then i.code else 0#32, i.eip, i.cs, i.eflags]

section

variable (sym : Handler → Word) (i : Interrupted) (stub : Stub) (stack : DwordStack)

-- Every stub leaves the registers, and a handler and an error code on the frame of the CPU.
theorem run_stubCode :
    run (stub.code sym) (i.enter stub stack) =
      { i.enter stub stack with stack := stack.pushAll (stubFrame sym i stub).reverse } := by
  -- the code of a stub is two pushes at most
  cases stub <;> rfl

/-- What `error_code` pushes, in order. -/
def pushedWords (m : Machine) : List Word :=
  [m.value (.seg .ds), m.reg .eax, m.reg .ebp, m.reg .edi, m.reg .esi, m.reg .edx, m.reg .ecx,
    m.reg .ebx, m.value (.seg .es), m.value (.seg .ds), -1#32, m.reg .ebp, m.reg .edi, m.reg .esi,
    m.reg .edx, m.reg .ecx, m.reg .ebx, m.value (.seg .es)]

theorem run_errorCodePushes (m : Machine) :
    run errorCodePushes m =
      { m.set .eax (-1#32) with stack := m.stack.pushAll (pushedWords m) } := by
  have hneg : (0#32 : Word) - 1#32 = -1#32 := rfl
  simp only [errorCodePushes, run, List.foldl_cons, List.foldl_nil, exec, Machine.set,
    Machine.value, DwordStack.pushAll, pushedWords, BitVec.xor_self, Function.update_self, ne_eq,
    reduceCtorEq, not_false_eq_true, Function.update_of_ne, Function.update_idem, hneg]

section

variable (m : Machine)

theorem stack_errorCodeSwap :
    (run errorCodeSwap m).stack =
      (m.stack.pop.2.store (offOrigEax / 4) (m.reg .eax)).store (offEs / 4) m.stack.pop.1 :=
  rfl

theorem eax_errorCodeSwap : (run errorCodeSwap m).reg .eax = (run errorCodeSwap m).stack.esp := rfl

theorem edi_errorCodeSwap :
    (run errorCodeSwap m).reg .edi = m.stack.pop.2.load (offEs / 4) :=
  rfl

theorem edx_errorCodeSwap :
    (run errorCodeSwap m).reg .edx = m.stack.pop.2.load (offOrigEax / 4) :=
  rfl

theorem esp_errorCodeSwap : (run errorCodeSwap m).stack.esp = m.stack.esp + 4#32 := rfl

end

/-- The frame that `error_code` leaves on what a stub has pushed. -/
def errorFrame (reg : Reg → Word) (seg : Seg → BitVec 16) : List Word :=
  [reg .ebx, reg .ecx, reg .edx, reg .esi, reg .edi, reg .ebp, -1#32, (seg .ds).setWidth 32,
    (seg .es).setWidth 32, -1#32, reg .ecx, reg .edx, reg .esi, reg .edi, reg .ebp, reg .eax,
    (seg .ds).setWidth 32]

theorem run_errorCode {m : Machine} {words : List Word} (h : m.stack.Holds words)
    (hlen : words.length < 2 ^ 28) :
    (run errorCode m).stack.Holds (errorFrame m.reg m.seg ++ words) ∧
      (run errorCode m).stack.esp = m.stack.esp - 68#32 ∧
      (run errorCode m).reg .eax = (run errorCode m).stack.esp ∧
      (run errorCode m).reg .edi = (m.seg .es).setWidth 32 ∧
      (run errorCode m).reg .edx = m.reg .ebx := by
  have hlen' : (pushedWords m).length = 18 := rfl
  have hpop := (h.pushAll (pushedWords m) (by omega)).pop
  have hesp := DwordStack.esp_pushAll (pushedWords m) m.stack
  rw [errorCode, run_append, run_errorCodePushes, eax_errorCodeSwap, edi_errorCodeSwap,
    edx_errorCodeSwap, esp_errorCodeSwap, stack_errorCodeSwap]
  -- after `pop ecx` the frame is one of the two copies, and its slots 8 and 9 are es and ebx
  have hframe := (hpop.2.store (offOrigEax / 4) (-1#32) (by simp [offOrigEax])).store (offEs / 4)
    (m.value (.seg .es)) (by simp [offEs])
  refine ⟨?_, ?_, rfl, ?_, ?_⟩
  · dsimp only [Machine.set]
    rw [hpop.1, Function.update_self]
    exact hframe
  · dsimp only
    rw [hesp, hlen']
    bv_omega
  · exact hpop.2.load (by simp [offEs])
  · exact hpop.2.load (by simp [offOrigEax])

theorem run_restoreAll {m : Machine} {i : Interrupted} (h : PtRegs m.stack.mem m.stack.esp i) :
    (run restoreAll m).reg = i.reg ∧ (run restoreAll m).seg = i.seg := by
  constructor
  · funext r
    cases r <;> simp [restoreAll]
    · exact h.eax
    · exact h.ebx
    · exact h.ecx
    · exact h.edx
    · exact h.esi
    · exact h.edi
    · exact h.ebp
  · funext s
    cases s <;> simp [restoreAll]
    · exact h.ds
    · exact h.es

theorem stack_restoreAll (m : Machine) :
    (run restoreAll m).stack = { m.stack with esp := m.stack.esp + 40#32 } := by
  simp [restoreAll]
  bv_omega

theorem stack_retFromException (m : Machine) :
    (retFromException m).stack = { m.stack with esp := m.stack.esp + 40#32 } := by
  unfold retFromException retFromIntr
  split
  · exact stack_restoreAll _
  · exact stack_restoreAll _

/-- The way back is in order: off a `struct pt_regs` it restores what was interrupted, and `iret`
finds the field `eip`. -/
theorem retFromException_of_ptRegs {m : Machine} {i : Interrupted}
    (h : PtRegs m.stack.mem m.stack.esp i) :
    (retFromException m).reg = i.reg ∧ (retFromException m).seg = i.seg ∧
      (retFromException m).stack.esp = m.stack.esp + BitVec.ofNat 32 offEip := by
  have hregs : (retFromException m).reg = i.reg ∧ (retFromException m).seg = i.seg := by
    unfold retFromException retFromIntr
    split
    · exact run_restoreAll h
    · exact run_restoreAll h
  refine ⟨hregs.1, hregs.2, ?_⟩
  rw [stack_retFromException]
  rfl

theorem load_retFromException {m t : Machine} (ht : HandlerReturns m t) {k : Nat} (hk : k ≤ 2) :
    (retFromException t).stack.load k = m.stack.load (k + 10) := by
  have hslot : (retFromException t).stack.slot k = m.stack.slot (k + 10) := by
    unfold DwordStack.slot
    rw [stack_retFromException, ht.1, Nat.mul_add, BitVec.ofNat_add]
    bv_omega
  have hmem : (retFromException t).stack.mem = t.stack.mem := by rw [stack_retFromException]
  unfold DwordStack.load
  rw [hslot, hmem]
  exact ht.2 (k + 10) (by simp [offEflags]; omega)

/-- The machine at `call edi`: the frame in two copies that overlap, and the wrong words in `edi`
and `edx`. -/
theorem atCall_spec :
    (atCall sym i stub stack).stack.Holds (errorFrame i.reg i.seg ++ stubFrame sym i stub) ∧
      (atCall sym i stub stack).stack.esp = stack.esp - 88#32 ∧
      (atCall sym i stub stack).reg .eax = (atCall sym i stub stack).stack.esp ∧
      (atCall sym i stub stack).reg .edi = (i.seg .es).setWidth 32 ∧
      (atCall sym i stub stack).reg .edx = i.reg .ebx := by
  have hnil : stack.Holds [] := ⟨by decide, fun _ hk ↦ absurd hk (Nat.not_lt_zero _)⟩
  have hstub := hnil.pushAll (stubFrame sym i stub).reverse (by simp [stubFrame])
  rw [List.reverse_reverse, List.append_nil] at hstub
  have hesp := DwordStack.esp_pushAll (stubFrame sym i stub).reverse stack
  obtain ⟨hframe, hespCall, heax, hedi, hedx⟩ := run_errorCode
    (m := { i.enter stub stack with stack := stack.pushAll (stubFrame sym i stub).reverse })
    hstub (by simp [stubFrame])
  rw [atCall, run_stubCode]
  refine ⟨hframe, hespCall.trans ?_, heax, hedi, hedx⟩
  dsimp only
  rw [hesp]
  simp [stubFrame]
  bv_omega

/-- What `iret` finds on the stack: not `eip`, `cs` and `eflags` but `ecx`, `edx` and `esi`. -/
theorem iret_frame {t : Machine} (ht : HandlerReturns (atCall sym i stub stack) t) :
    (retFromException t).stack.load 0 = i.reg .ecx ∧
      (retFromException t).stack.load 1 = i.reg .edx ∧
      (retFromException t).stack.load 2 = i.reg .esi := by
  have hframe := (atCall_spec sym i stub stack).1
  rw [load_retFromException ht (by decide), load_retFromException ht (by decide),
    load_retFromException ht (by decide)]
  exact ⟨hframe.load (by simp [errorFrame]), hframe.load (by simp [errorFrame]),
    hframe.load (by simp [errorFrame])⟩

/-- No exception comes back: `iret` runs nine double words below the frame of the CPU. -/
theorem not_roundTrip : ¬ RoundTrip sym i stub stack := by
  intro h
  have hback := (h.back (atCall sym i stub stack) ⟨rfl, fun _ _ ↦ rfl⟩).2.2
  rw [stack_retFromException] at hback
  dsimp only [eipAddr] at hback
  rw [(atCall_spec sym i stub stack).2.1] at hback
  bv_omega

end

/-- A division by zero in the kernel, its data selectors in `ds` and `es`. -/
def divideByZero : Interrupted where
  reg := fun r ↦ if r = .eax then 1#32 else 0#32
  seg := fun _ ↦ 0x18#16
  eip := 0xC0100000#32
  cs := 0x10#32
  eflags := 0x202#32
  code := 0#32

theorem divideByZero_not_roundTrip :
    ¬ RoundTrip (fun _ ↦ 0xC0101000#32) divideByZero .divideError ⟨fun _ ↦ 0#32, 0xC0200000#32⟩ := by
  intro h
  -- `call edi` goes to the selector in `es`
  have htarget := h.target
  rw [(atCall_spec _ _ _ _).2.2.2.1] at htarget
  exact absurd htarget (by decide)

end AphroditeOs
