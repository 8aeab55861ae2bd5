import AphroditeOs.Lib.DwordStack
import AphroditeOs.Page

/-!
# The instructions of the exception path

A straight-line fragment of 32-bit code: the seven general registers other than `esp`, the two
segment registers the stubs save, and the stack, a memory of its own apart from code and tables.  A
pushed selector is zero extended.
-/

namespace AphroditeOs

inductive Reg where
  | eax
  | ebx
  | ecx
  | edx
  | esi
  | edi
  | ebp
  deriving DecidableEq, Repr

inductive Seg where
  | ds
  | es
  deriving DecidableEq, Repr

structure Machine where
  reg : Reg → Word
  seg : Seg → BitVec 16
  -- the zero flag, as `test` leaves it
  zf : Bool
  stack : DwordStack

inductive Src where
  | imm (v : Word)
  | reg (r : Reg)
  | seg (s : Seg)
  deriving DecidableEq, Repr

/-- Displacements are from `esp`, in bytes. -/
inductive Instr where
  | push (src : Src)
  | pop (r : Reg)
  | popSeg (s : Seg)
  | mov (r : Reg) (v : Word)
  | movFromEsp (r : Reg)
  | movSeg (s : Seg) (r : Reg)
  | load (r : Reg) (disp : Nat)
  | loadLow (r : Reg) (disp : Nat)
  | store (disp : Nat) (r : Reg)
  | xor (r r' : Reg)
  | dec (r : Reg)
  | andEsp (r : Reg)
  | addEsp (v : Word)
  | test (r : Reg) (v : Word)
  | cli
  | cld
  | nop
  deriving DecidableEq, Repr

def Machine.value (m : Machine) : Src → Word
  | .imm v => v
  | .reg r => m.reg r
  | .seg s => (m.seg s).setWidth 32

def Machine.set (m : Machine) (r : Reg) (v : Word) : Machine :=
  { m with reg := Function.update m.reg r v }

def Machine.setSeg (m : Machine) (s : Seg) (v : BitVec 16) : Machine :=
  { m with seg := Function.update m.seg s v }

def exec (m : Machine) : Instr → Machine
  | .push src => { m with stack := m.stack.push (m.value src) }
  | .pop r => { m.set r m.stack.pop.1 with stack := m.stack.pop.2 }
  | .popSeg s => { m.setSeg s (m.stack.pop.1.setWidth 16) with stack := m.stack.pop.2 }
  | .mov r v => m.set r v
  | .movFromEsp r => m.set r m.stack.esp
  | .movSeg s r => m.setSeg s ((m.reg r).setWidth 16)
  | .load r disp => m.set r (m.stack.load (disp / 4))
  | .loadLow r disp =>
    m.set r ((m.reg r &&& 0xFFFFFF00#32) ||| (m.stack.load (disp / 4) &&& 0xFF#32))
  | .store disp r => { m with stack := m.stack.store (disp / 4) (m.reg r) }
  | .xor r r' => m.set r (m.reg r ^^^ m.reg r')
  | .dec r => m.set r (m.reg r - 1#32)
  | .andEsp r => m.set r (m.reg r &&& m.stack.esp)
  | .addEsp v => { m with stack := { m.stack with esp := m.stack.esp + v } }
  | .test r v => { m with zf := (m.reg r &&& v) = 0#32 }
  | .cli => m
  | .cld => m
  | .nop => m

def run (code : List Instr) (m : Machine) : Machine := code.foldl exec m

@[simp] theorem run_nil (m : Machine) : run [] m = m := rfl

@[simp] theorem run_cons (i : Instr) (code : List Instr) (m : Machine) :
    run (i :: code) m = run code (exec m i) :=
  rfl

theorem run_append (code code' : List Instr) (m : Machine) :
    run (code ++ code') m = run code' (run code m) :=
  List.foldl_append

section

variable (m : Machine) (r : Reg) (s : Seg) (v : Word)

@[simp] theorem stack_exec_pop : (exec m (.pop r)).stack = m.stack.pop.2 := rfl

@[simp] theorem reg_exec_pop :
    (exec m (.pop r)).reg = Function.update m.reg r m.stack.pop.1 :=
  rfl

@[simp] theorem seg_exec_pop : (exec m (.pop r)).seg = m.seg := rfl

@[simp] theorem stack_exec_popSeg : (exec m (.popSeg s)).stack = m.stack.pop.2 := rfl

@[simp] theorem reg_exec_popSeg : (exec m (.popSeg s)).reg = m.reg := rfl

@[simp] theorem seg_exec_popSeg :
    (exec m (.popSeg s)).seg = Function.update m.seg s (m.stack.pop.1.setWidth 16) :=
  rfl

@[simp] theorem stack_exec_addEsp :
    (exec m (.addEsp v)).stack = { m.stack with esp := m.stack.esp + v } :=
  rfl

@[simp] theorem reg_exec_addEsp : (exec m (.addEsp v)).reg = m.reg := rfl

@[simp] theorem seg_exec_addEsp : (exec m (.addEsp v)).seg = m.seg := rfl

end

end AphroditeOs
