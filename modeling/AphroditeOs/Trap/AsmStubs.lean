import AphroditeOs.Trap.Machine

/-!
# The exception stubs of `kernel/asm.s`

The two entries, without an error code and with one, save the registers and call a C function by way
of a register.  Selectors are pushed zero extended; `fs` is saved here as well.
-/

namespace AphroditeOs

namespace AsmS

/-! ## The code -/

inductive DataSeg where
  | ds
  | es
  | fs
  deriving DecidableEq, Repr

structure Machine where
  reg : Reg → Word
  seg : DataSeg → BitVec 16
  stack : DwordStack

/-- Displacements are from `esp`, in bytes. -/
inductive Instr where
  | push (v : Word)
  | pushReg (r : Reg)
  | pushSeg (s : DataSeg)
  | xchg (r : Reg) (disp : Nat)
  | movLow (r : Reg) (v : BitVec 16)
  | movSeg (s : DataSeg) (r : Reg)
  | lea (r : Reg) (disp : Nat)
  | addEsp (v : Word)
  | pop (r : Reg)
  | popSeg (s : DataSeg)
  deriving DecidableEq, Repr

def Machine.set (m : Machine) (r : Reg) (v : Word) : Machine :=
  { m with reg := Function.update m.reg r v }

def Machine.setSeg (m : Machine) (s : DataSeg) (v : BitVec 16) : Machine :=
  { m with seg := Function.update m.seg s v }

def exec (m : Machine) : Instr → Machine
  | .push v => { m with stack := m.stack.push v }
  | .pushReg r => { m with stack := m.stack.push (m.reg r) }
  | .pushSeg s => { m with stack := m.stack.push ((m.seg s).setWidth 32) }
  | .xchg r disp =>
    { m.set r (m.stack.load (disp / 4)) with stack := m.stack.store (disp / 4) (m.reg r) }
  | .movLow r v => m.set r ((m.reg r &&& 0xFFFF0000#32) ||| v.setWidth 32)
  | .movSeg s r => m.setSeg s ((m.reg r).setWidth 16)
  | .lea r disp => m.set r (m.stack.slot (disp / 4))
  | .addEsp v => { m with stack := { m.stack with esp := m.stack.esp + v } }
  | .pop r => { m.set r m.stack.pop.1 with stack := m.stack.pop.2 }
  | .popSeg s => { m.setSeg s (m.stack.pop.1.setWidth 16) with stack := m.stack.pop.2 }

def run (code : List Instr) (m : Machine) : Machine := code.foldl exec m

/-- The C functions that the stubs push. -/
inductive Handler where
  | doDivideError
  | doNmi
  | doInt3
  | doOverflow
  | doBoundRangeExceeded
  | doInvalidOpcode
  | doNoCoprocessor
  | doCopSegOverrun
  | doX87Error
  | doMachineCheck
  | doSmidException
  | doReserved
  | doDoubleFault
  | doInvalidTss
  | doSegNotPresent
  | doStackSegFault
  | doGeneralProtect
  | doPageFault
  | doAlignmentCheck
  deriving DecidableEq, Repr

inductive Stub where
  | divideError
  | nmi
  | breakpoint
  | overflow
  | bounds
  | invalidOpcode
  | deviceNotAvaiable
  | coprocessorSegmentOverrun
  | x87Error
  | machineCheck
  | smidException
  | reserved
  | doubleFault
  | invalidTss
  | segmentNotPresent
  | stackSegFault
  | generalProtect
  | pageFault
  | alignmentCheck
  deriving DecidableEq, Repr

def Stub.handler : Stub → Handler
  | .divideError => .doDivideError
  | .nmi => .doNmi
  | .breakpoint => .doInt3
  | .overflow => .doOverflow
  | .bounds => .doBoundRangeExceeded
  | .invalidOpcode => .doInvalidOpcode
  | .deviceNotAvaiable => .doNoCoprocessor
  | .coprocessorSegmentOverrun => .doCopSegOverrun
  | .x87Error => .doX87Error
  | .machineCheck => .doMachineCheck
  | .smidException => .doSmidException
  | .reserved => .doReserved
  | .doubleFault => .doDoubleFault
  | .invalidTss => .doInvalidTss
  | .segmentNotPresent => .doSegNotPresent
  | .stackSegFault => .doStackSegFault
  | .generalProtect => .doGeneralProtect
  | .pageFault => .doPageFault
  | .alignmentCheck => .doAlignmentCheck

/-- The stubs that go on at `error_code`; for these exceptions the CPU pushes one. -/
def Stub.hasErrorCode : Stub → Bool
  | .doubleFault | .invalidTss | .segmentNotPresent | .stackSegFault | .generalProtect | .pageFault
  | .alignmentCheck => true
  | _ => false

/-- Up to `call dword [edx]`. -/
def noErrorCode : List Instr :=
  [.xchg .eax 0, .pushReg .ebx, .pushReg .ecx, .pushReg .edx, .pushReg .esi, .pushReg .edi,
    .pushReg .ebp, .pushSeg .ds, .pushSeg .es, .pushSeg .fs, .movLow .edx 0x10#16, .movSeg .ds .edx,
    .movSeg .es .edx, .movSeg .fs .edx, .push 0#32, .lea .edx 44, .pushReg .edx]

/-- Up to `call dword [ebx]`. -/
def errorCode : List Instr :=
  [.xchg .ebx 0, .xchg .eax 4, .pushReg .ecx, .pushReg .edx, .pushReg .esi, .pushReg .edi,
    .pushReg .ebp, .pushSeg .ds, .pushSeg .es, .pushSeg .fs, .movLow .eax 0x10#16, .movSeg .ds .eax,
    .movSeg .es .eax, .movSeg .fs .eax, .pushReg .eax, .lea .eax 44, .pushReg .eax]

/-- Behind either `call`, up to `iret`. -/
def restore : List Instr :=
  [.addEsp 8#32, .popSeg .fs, .popSeg .es, .popSeg .ds, .pop .ebp, .pop .edi, .pop .esi, .pop .edx,
    .pop .ecx, .pop .ebx, .pop .eax]

def Stub.code (sym : Handler → Word) (stub : Stub) : List Instr :=
  .push (sym stub.handler) :: if stub.hasErrorCode then errorCode else noErrorCode

/-- The operand of the `call`. -/
def Stub.callReg (stub : Stub) : Reg := if stub.hasErrorCode then .ebx else .edx

/-- Where the `call` goes: it reads its target from memory. -/
def callTarget (stub : Stub) (m : Machine) : Word := m.stack.mem (m.reg stub.callReg)

/-! ## Entry and return -/

/-- What an exception interrupts; `code` is the error code of the CPU. -/
structure Interrupted where
  reg : Reg → Word
  seg : DataSeg → BitVec 16
  eip : Word
  cs : Word
  eflags : Word
  code : Word

def Interrupted.enter (i : Interrupted) (stub : Stub) (stack : DwordStack) : Machine where
  reg := i.reg
  seg := i.seg
  stack := stack.pushAll ([i.eflags, i.cs, i.eip] ++ if stub.hasErrorCode then [i.code] else [])

/-- The machine at the `call`. -/
def atCall (sym : Handler → Word) (i : Interrupted) (stub : Stub) (stack : DwordStack) : Machine :=
  run (stub.code sym) (i.enter stub stack)

/-- The error code as it is passed on: `mov ax, 010H` has come over it. -/
def passedCode (i : Interrupted) (stub : Stub) : Word :=
  if stub.hasErrorCode then (i.code &&& 0xFFFF0000#32) ||| 0x10#32 else 0#32

/-- A function called in `m` may come back in `t`: what was saved has not changed. -/
def Returns (m t : Machine) : Prop :=
  t.stack.esp = m.stack.esp ∧ ∀ k, 2 ≤ k → k < 15 → t.stack.mem (m.stack.slot k) = m.stack.load k

/-- What the CPU saves when the code that a stub has called is interrupted itself. -/
structure Reentry where
  ret : Word
  cs : Word
  eflags : Word
  code : Word

/-- The code that the stub has called meets the same exception at once. -/
def reenter (sym : Handler → Word) (stub : Stub) (s : Interrupted × DwordStack) (a : Reentry) :
    Interrupted × DwordStack :=
  let m := atCall sym s.1 stub s.2
  (⟨m.reg, m.seg, callTarget stub m, a.cs, a.eflags, a.code⟩, m.stack.push a.ret)

/-- What a stub does.  The address of its C function is in a register when it calls, but the target
is the word that is there, or where the interrupted code goes on. -/
structure Calls (sym : Handler → Word) (i : Interrupted) (stub : Stub) (stack : DwordStack) :
    Prop where
  handler : (atCall sym i stub stack).reg (if stub.hasErrorCode then .ebx else .eax) =
    sym stub.handler
  target : callTarget stub (atCall sym i stub stack) =
    if stub.hasErrorCode then (atCall sym i stub stack).stack.mem (sym stub.handler) else i.eip
  -- the arguments: the address of `eip`, and the error code
  eipAddr : (atCall sym i stub stack).stack.load 0 = stack.esp - 12#32
  code : (atCall sym i stub stack).stack.load 1 = passedCode i stub
  -- a fault that the instruction at `eip` always meets takes more and more of the stack
  again : stub.hasErrorCode = false → ∀ l : List Reentry,
    (l.foldl (reenter sym stub) (i, stack)).1.eip = i.eip ∧
      (l.foldl (reenter sym stub) (i, stack)).2.esp =
        stack.esp - BitVec.ofNat 32 (64 * l.length)
  -- `restore` is in order
  back : ∀ t, Returns (atCall sym i stub stack) t →
    (run restore t).reg = i.reg ∧ (run restore t).seg = i.seg ∧
      (run restore t).stack.esp = stack.esp - 12#32 ∧ (run restore t).stack.load 0 = i.eip ∧
      (run restore t).stack.load 1 = i.cs ∧ (run restore t).stack.load 2 = i.eflags

/-! ## The pushes -/

/-- What both entries push, up to the error code. -/
def savedWords (m : Machine) : List Word :=
  [m.reg .ecx, m.reg .edx, m.reg .esi, m.reg .edi, m.reg .ebp, (m.seg .ds).setWidth 32,
    (m.seg .es).setWidth 32, (m.seg .fs).setWidth 32]

/-- The frame that both entries leave on `eip`. -/
def savedFrame (i : Interrupted) : List Word :=
  [(i.seg .fs).setWidth 32, (i.seg .es).setWidth 32, (i.seg .ds).setWidth 32, i.reg .ebp, i.reg .edi,
    i.reg .esi, i.reg .edx, i.reg .ecx, i.reg .ebx, i.reg .eax, i.eip, i.cs, i.eflags]

section

variable (m : Machine)

/-- The stack of `no_error_code` up to `lea`. -/
def noErrorSaved : DwordStack :=
  (m.stack.store 0 (m.reg .eax)).pushAll (m.reg .ebx :: savedWords m ++ [0#32])

/-- The stack of `error_code` up to `lea`, for the error code `w`. -/
def errorSaved (w : Word) : DwordStack :=
  ((m.stack.store 0 (m.reg .ebx)).store 1 (m.reg .eax)).pushAll
    (savedWords m ++ [(w &&& 0xFFFF0000#32) ||| 0x10#32])

theorem stack_noErrorCode :
    (run noErrorCode m).stack = (noErrorSaved m).push ((noErrorSaved m).slot 11) :=
  rfl

theorem stack_errorCode : (run errorCode m).stack =
    (errorSaved m ((m.stack.store 0 (m.reg .ebx)).load 1)).push
      ((errorSaved m ((m.stack.store 0 (m.reg .ebx)).load 1)).slot 11) :=
  rfl

end

section

variable {m : Machine} {v w : Word} {ws : List Word}

-- The handler's slot takes `eax`.
theorem run_noErrorCode (h : m.stack.Holds (v :: ws)) (hlen : ws.length < 2 ^ 28) :
    (run noErrorCode m).stack.Holds ((m.stack.esp + 4#32) :: 0#32 ::
        ((savedWords m).reverse ++ m.reg .ebx :: m.reg .eax :: ws)) ∧
      (run noErrorCode m).stack.esp = m.stack.esp - 44#32 ∧ (run noErrorCode m).reg .eax = v ∧
      (run noErrorCode m).reg .edx = m.stack.esp + 4#32 := by
  have hpush := (h.store 0 (m.reg .eax) (Nat.succ_pos _)).pushAll
    (m.reg .ebx :: savedWords m ++ [0#32]) (by simp [savedWords]; omega)
  have hesp : (noErrorSaved m).esp = m.stack.esp - 40#32 := DwordStack.esp_pushAll _ _
  have hslot : (noErrorSaved m).slot 11 = m.stack.esp + 4#32 := by
    rw [DwordStack.slot, hesp]
    bv_omega
  rw [stack_noErrorCode, hslot]
  refine ⟨hpush.push _ (by simp [savedWords]; omega), ?_, h.load (Nat.succ_pos _), hslot⟩
  show (noErrorSaved m).esp - 4#32 = _
  rw [hesp]
  bv_omega

-- The handler's slot takes `ebx`, that of the error code `eax`.
theorem run_errorCode (h : m.stack.Holds (v :: w :: ws)) (hlen : ws.length < 2 ^ 28) :
    (run errorCode m).stack.Holds ((m.stack.esp + 8#32) :: ((w &&& 0xFFFF0000#32) ||| 0x10#32) ::
        ((savedWords m).reverse ++ m.reg .ebx :: m.reg .eax :: ws)) ∧
      (run errorCode m).stack.esp = m.stack.esp - 40#32 ∧ (run errorCode m).reg .ebx = v := by
  have hfirst := h.store 0 (m.reg .ebx) (Nat.succ_pos _)
  have hcode : (m.stack.store 0 (m.reg .ebx)).load 1 = w := hfirst.load (by simp)
  have hpush := (hfirst.store 1 (m.reg .eax) (by simp)).pushAll
    (savedWords m ++ [(w &&& 0xFFFF0000#32) ||| 0x10#32]) (by simp [savedWords]; omega)
  have hesp : (errorSaved m w).esp = m.stack.esp - 36#32 := DwordStack.esp_pushAll _ _
  have hslot : (errorSaved m w).slot 11 = m.stack.esp + 8#32 := by
    rw [DwordStack.slot, hesp]
    bv_omega
  rw [stack_errorCode, hcode, hslot]
  refine ⟨hpush.push _ (by simp [savedWords]; omega), ?_, h.load (Nat.succ_pos _)⟩
  show (errorSaved m w).esp - 4#32 = _
  rw [hesp]
  bv_omega

end

/-! ## The frame at the call -/

section

variable (sym : Handler → Word) (i : Interrupted) (stub : Stub) (stack : DwordStack)

/-- The frame of the CPU, with the handler on it. -/
def entryFrame : List Word :=
  sym stub.handler :: ((if stub.hasErrorCode then [i.code] else []) ++ [i.eip, i.cs, i.eflags])

/-- The machine behind the `push` of a stub. -/
def pushed : Machine := exec (i.enter stub stack) (.push (sym stub.handler))

theorem pushed_spec : (pushed sym i stub stack).stack.Holds (entryFrame sym i stub) ∧
    (pushed sym i stub stack).stack.esp =
      stack.esp - if stub.hasErrorCode then 20#32 else 16#32 := by
  have hnil : stack.Holds [] := ⟨by decide, fun _ hk ↦ absurd hk (Nat.not_lt_zero _)⟩
  unfold pushed Interrupted.enter entryFrame
  cases stub.hasErrorCode with
  | false =>
    have hesp := DwordStack.esp_pushAll [i.eflags, i.cs, i.eip, sym stub.handler] stack
    exact ⟨hnil.pushAll [i.eflags, i.cs, i.eip, sym stub.handler] (by simp), hesp⟩
  | true =>
    have hesp := DwordStack.esp_pushAll [i.eflags, i.cs, i.eip, i.code, sym stub.handler] stack
    exact ⟨hnil.pushAll [i.eflags, i.cs, i.eip, i.code, sym stub.handler] (by simp), hesp⟩

theorem atCall_eq : atCall sym i stub stack =
    run (if stub.hasErrorCode then errorCode else noErrorCode) (pushed sym i stub stack) :=
  rfl

/-- The machine at the `call`, with what was interrupted on the stack. -/
theorem atCall_spec :
    (atCall sym i stub stack).stack.Holds
        ((stack.esp - 12#32) :: passedCode i stub :: savedFrame i) ∧
      (atCall sym i stub stack).stack.esp = stack.esp - 60#32 ∧
      (atCall sym i stub stack).reg (if stub.hasErrorCode then .ebx else .eax) = sym stub.handler ∧
      (stub.hasErrorCode = false → (atCall sym i stub stack).reg .edx = stack.esp - 12#32) := by
  obtain ⟨hholds, hesp⟩ := pushed_spec sym i stub stack
  rw [atCall_eq]
  unfold entryFrame passedCode at *
  cases hcode : stub.hasErrorCode with
  | false =>
    rw [hcode] at hholds hesp
    obtain ⟨hframe, hesp', hreg, hedx⟩ := run_noErrorCode hholds (by simp)
    have haddr : stack.esp - 16#32 + 4#32 = stack.esp - 12#32 := by bv_omega
    rw [hesp, if_neg Bool.false_ne_true] at hframe hesp' hedx
    rw [haddr] at hframe hedx
    refine ⟨hframe, hesp'.trans ?_, hreg, fun _ ↦ hedx⟩
    bv_omega
  | true =>
    rw [hcode] at hholds hesp
    obtain ⟨hframe, hesp', hreg⟩ := run_errorCode hholds (by simp)
    have haddr : stack.esp - 20#32 + 8#32 = stack.esp - 12#32 := by bv_omega
    rw [hesp, if_pos rfl] at hframe hesp'
    rw [haddr] at hframe
    refine ⟨hframe, hesp'.trans ?_, hreg, nofun⟩
    bv_omega

theorem callTarget_atCall : callTarget stub (atCall sym i stub stack) =
    if stub.hasErrorCode then (atCall sym i stub stack).stack.mem (sym stub.handler) else i.eip := by
  obtain ⟨hframe, hesp, hreg, hedx⟩ := atCall_spec sym i stub stack
  unfold callTarget Stub.callReg
  cases hcode : stub.hasErrorCode with
  | false =>
    -- the address of `eip` is that of the frame's slot 12
    have hslot : (atCall sym i stub stack).stack.slot 12 = stack.esp - 12#32 := by
      rw [DwordStack.slot, hesp]
      bv_omega
    rw [if_neg Bool.false_ne_true, if_neg Bool.false_ne_true, hedx hcode, ← hslot]
    exact hframe.load (k := 12) (by simp [savedFrame])
  | true =>
    rw [hcode, if_pos rfl] at hreg
    rw [if_pos rfl, if_pos rfl, hreg]

end

/-! ## The way back -/

section

variable {i : Interrupted} {m t : Machine}

theorem Returns.holds {a b : Word} (h : Returns m t) (hm : m.stack.Holds (a :: b :: savedFrame i)) :
    { t.stack with esp := t.stack.esp + 8#32 : DwordStack }.Holds (savedFrame i) := by
  refine ⟨by simp [savedFrame], fun k hk ↦ ?_⟩
  have hk' : k < 13 := hk
  have hslot : { t.stack with esp := t.stack.esp + 8#32 : DwordStack }.slot k =
      m.stack.slot (k + 2) := by
    unfold DwordStack.slot
    rw [h.1, Nat.mul_add, BitVec.ofNat_add]
    bv_omega
  rw [DwordStack.load, hslot]
  exact (h.2 (k + 2) (by omega) (by omega)).trans (hm.load (k := k + 2) (by simp [savedFrame]; omega))

theorem run_restore
    (h : { t.stack with esp := t.stack.esp + 8#32 : DwordStack }.Holds (savedFrame i)) :
    (run restore t).reg = i.reg ∧ (run restore t).seg = i.seg ∧
      (run restore t).stack.Holds [i.eip, i.cs, i.eflags] := by
  obtain ⟨hfs, h⟩ := h.pop
  obtain ⟨hes, h⟩ := h.pop
  obtain ⟨hds, h⟩ := h.pop
  obtain ⟨hebp, h⟩ := h.pop
  obtain ⟨hedi, h⟩ := h.pop
  obtain ⟨hesi, h⟩ := h.pop
  obtain ⟨hedx, h⟩ := h.pop
  obtain ⟨hecx, h⟩ := h.pop
  obtain ⟨hebx, h⟩ := h.pop
  obtain ⟨heax, h⟩ := h.pop
  have hselector : ∀ {v : Word} {s : DataSeg}, v = (i.seg s).setWidth 32 → v.setWidth 16 = i.seg s := by
    intro v s hv
    rw [hv]
    simp
  refine ⟨funext fun r ↦ ?_, funext fun s ↦ ?_, h⟩
  · cases r with
    | eax => exact heax
    | ebx => exact hebx
    | ecx => exact hecx
    | edx => exact hedx
    | esi => exact hesi
    | edi => exact hedi
    | ebp => exact hebp
  · cases s with
    | ds => exact hselector hds
    | es => exact hselector hes
    | fs => exact hselector hfs

theorem esp_restore (t : Machine) : (run restore t).stack.esp = t.stack.esp + 48#32 := by
  show t.stack.esp + 8#32 + 4#32 + 4#32 + 4#32 + 4#32 + 4#32 + 4#32 + 4#32 + 4#32 + 4#32 + 4#32 = _
  bv_omega

end

/-! ## What a stub does -/

section

variable (sym : Handler → Word) (i : Interrupted) (stub : Stub) (stack : DwordStack)

theorem foldl_reenter (hcode : stub.hasErrorCode = false) (l : List Reentry) :
    (l.foldl (reenter sym stub) (i, stack)).1.eip = i.eip ∧
      (l.foldl (reenter sym stub) (i, stack)).2.esp =
        stack.esp - BitVec.ofNat 32 (64 * l.length) := by
  induction l generalizing i stack with
  | nil => exact ⟨rfl, (BitVec.sub_zero stack.esp).symm⟩
  | cons a l ih =>
    obtain ⟨-, hesp, -, -⟩ := atCall_spec sym i stub stack
    have htarget := callTarget_atCall sym i stub stack
    rw [hcode, if_neg Bool.false_ne_true] at htarget
    obtain ⟨heip, hdepth⟩ := ih (reenter sym stub (i, stack) a).1 (reenter sym stub (i, stack) a).2
    have hpush : (reenter sym stub (i, stack) a).2.esp = stack.esp - 64#32 := by
      show (atCall sym i stub stack).stack.esp - 4#32 = _
      rw [hesp]
      bv_omega
    rw [List.foldl_cons]
    refine ⟨heip.trans htarget, hdepth.trans ?_⟩
    rw [hpush, List.length_cons, Nat.mul_succ, BitVec.ofNat_add]
    bv_omega

/-- **No stub calls the function it has pushed**, unless that function is where the interrupted code
goes on, or begins with its own address.  All else is in order: what comes back is resumed. -/
theorem stub_calls : Calls sym i stub stack := by
  obtain ⟨hframe, hesp, hreg, -⟩ := atCall_spec sym i stub stack
  refine ⟨hreg, callTarget_atCall sym i stub stack, hframe.load (Nat.succ_pos _),
    hframe.load (k := 1) (by simp), foldl_reenter sym i stub stack, fun t ht ↦ ?_⟩
  obtain ⟨hregs, hseg, hback⟩ := run_restore (ht.holds hframe)
  refine ⟨hregs, hseg, ?_, hback.load (Nat.succ_pos _), hback.load (k := 1) (by simp),
    hback.load (k := 2) (by simp)⟩
  rw [esp_restore, ht.1, hesp]
  bv_omega

end

end AsmS

end AphroditeOs
