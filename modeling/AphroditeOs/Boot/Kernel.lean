import AphroditeOs.Boot.Startup
import AphroditeOs.Setup.Pipeline
import AphroditeOs.Trap.Served

/-!
# From `startup_32` to the end of `start_kernel`

`start_kernel`, built without `DEBUG`, gets at the loader's map, at the screen, at the bitmap and at
the descriptor table through the page tables of `head.S`.  What `trap_init` and `init_IRQ` leave in
memory is the table that the processor reads.
-/

namespace AphroditeOs

open PageTables

/-! ## The gates in memory -/

abbrev GateWrite := Nat × DescStruct

namespace Handlers

variable (h : Handlers)

/-- The calls of `trap_init`, in order. -/
def trapGates : List GateWrite :=
  [(0, setGate 0#32 15#32 (h.trap .divideError)),
    (1, setGate 0#32 15#32 (h.trap .debug)),
    (2, setGate 0#32 15#32 (h.trap .nmi)),
    (3, setGate 3#32 14#32 (h.trap .int3)),
    (4, setGate 3#32 15#32 (h.trap .overflow)),
    (5, setGate 3#32 15#32 (h.trap .bounds)),
    (6, setGate 0#32 15#32 (h.trap .invalidOp)),
    (7, setGate 0#32 15#32 (h.trap .deviceNotAvailable)),
    (8, setGate 0#32 3#32 0#32),
    (9, setGate 0#32 15#32 (h.trap .coprocessorSegmentOverrun)),
    (10, setGate 0#32 15#32 (h.trap .invalidTss)),
    (11, setGate 0#32 15#32 (h.trap .segmentNotPresent)),
    (12, setGate 0#32 15#32 (h.trap .stackSegment)),
    (13, setGate 0#32 15#32 (h.trap .generalProtection)),
    (14, setGate 0#32 15#32 (h.trap .pageFault)),
    (16, setGate 0#32 15#32 (h.trap .x87Error)),
    (17, setGate 0#32 15#32 (h.trap .alignmentCheck)),
    (18, setGate 0#32 15#32 (h.trap .machineCheck)),
    (19, setGate 0#32 15#32 (h.trap .smidException)),
    (128, setGate 3#32 15#32 (h.trap .systemCall))]

/-- The call that the loop of `init_IRQ` makes for line `i`, if it makes one. -/
def irqGate (i : Nat) : Option GateWrite :=
  let vector := firstExternalVector + i
  if vector ≠ syscallVector then some (vector, setGate 0#32 14#32 (h.interrupt i)) else none

def irqGates : List GateWrite := (List.range nrIrqs).filterMap h.irqGate

end Handlers

/-- `set_gate` on an entry of `idt_table`. -/
def HeadSymbols.setGateAt (y : HeadSymbols) (mem : BitMemory) (g : GateWrite) : Option BitMemory :=
  storeGate y.swapperPgDir.toNat g.2 (va (y.idtTable + BitVec.ofNat 32 (8 * g.1))) mem

def HeadSymbols.setGates (y : HeadSymbols) (gates : List GateWrite) (mem : BitMemory) :
    Option BitMemory :=
  gates.foldlM y.setGateAt mem

/-- The writes on the table itself. -/
def updateGates (gates : List GateWrite) (idt : IdtTable) : IdtTable :=
  gates.foldl (fun idt g ↦ Function.update idt g.1 g.2) idt

/-! ## `start_kernel` -/

/-- The fields of `struct mbinfo` that are used, through the page tables. -/
def loadMbinfo (mem : BitMemory) (dir : Nat) (pmb : Word) : Option Mbinfo :=
  (loadLinear mem dir (pmb + 44#32)).bind fun mmapLength ↦
    (loadLinear mem dir (pmb + 48#32)).map fun mmapAddr ↦ ⟨mmapLength, mmapAddr⟩

/-- The same fields, from a physical address. -/
def mbinfoAt (mem : BitMemory) (pmb : Word) : Mbinfo :=
  ⟨mem.word32 (pmb.toNat + 44), mem.word32 (pmb.toNat + 48)⟩

/-- `start_kernel` without `DEBUG`, with its arguments on the stack.  Its variables are not in memory
here; `shows` is what `cls` and `printk_new` make of it. -/
def HeadSymbols.startKernel (y : HeadSymbols) (fuel : Nat) (shows : BitMemory → BitMemory)
    (map : Nat → E820Entry) (s : Startup.StackMemory) : Option BootState :=
  let dir := y.swapperPgDir.toNat
  (loadLinear s.2 dir (s.1 + 8#32)).bind fun pmb ↦
    (loadMbinfo (shows s.2) dir pmb).bind fun info ↦
      (loadLinear (shows s.2) dir (va y.initPgTablesEnd)).bind fun initPgTablesEnd ↦
        (AphroditeOs.startKernel fuel shows info initPgTablesEnd map (bootImage s.2)).bind fun t ↦
          (y.setGates (y.handlers.trapGates ++ y.handlers.irqGates) t.mem).map fun mem ↦
            { t with mem := mem }

/-- `startup_32` and `start_kernel`. -/
def HeadSymbols.boot (y : HeadSymbols) (fuel : Nat) (shows : BitMemory → BitMemory)
    (map : Nat → E820Entry) (ebx : Word) (mem : BitMemory) : Option (Nat × BootState) :=
  (Startup.startup32 y ebx mem).bind fun r ↦
    (y.startKernel fuel shows map r.2).map fun t ↦ (r.1, t)

namespace Handlers

variable (h : Handlers) (idt : IdtTable)

end Handlers

section

variable {y : HeadSymbols} {mem mem' : BitMemory} {k : Nat} {ms : List Mmap}

theorem BootMapped.setGates (hlink : y.Linked) (hk : k ≤ 256) (hreach : TablesReach y.pg0 k)
    {gates : List GateWrite} (hgates : ∀ g ∈ gates, g.1 < 256) (h : BootMapped y k mem) :
    ∃ mem', y.setGates gates mem = some mem' ∧ BootMapped y k mem' ∧
      idtAt mem' y.idtTable.toNat = updateGates gates (idtAt mem y.idtTable.toNat) ∧
      ∀ a, a < y.idtTable.toNat ∨ y.idtTable.toNat + 2048 ≤ a → mem'.byte a = mem.byte a := by
  induction gates generalizing mem with
  | nil => exact ⟨mem, rfl, h, rfl, fun _ _ ↦ rfl⟩
  | cons g gates ih =>
    obtain ⟨mem₁, hstore, h₁, htable₁, hframe₁⟩ :=
      h.storeGate hlink hk hreach (hgates g List.mem_cons_self) g.2
    obtain ⟨mem₂, hrun, h₂, htable₂, hframe₂⟩ := ih (fun g hg ↦ hgates g (List.mem_cons_of_mem _ hg)) h₁
    refine ⟨mem₂, ?_, h₂, ?_, fun a ha ↦ ?_⟩
    · rw [HeadSymbols.setGates, List.foldlM_cons, HeadSymbols.setGateAt, hstore]
      exact hrun
    · rw [htable₂, htable₁]
      rfl
    · rw [hframe₂ a ha, hframe₁ a ha]

/-! ## The whole way -/

theorem windowTranslate_low {a : Word} (ha : a.toNat < 2 ^ 22 * k) :
    windowTranslate k a = some a.toNat := by
  rw [windowTranslate, if_pos ha]

theorem BootMapped.loadMbinfo {pmb : Word} (h : BootMapped y k mem) (hk : k ≤ 256)
    (hpmb : pmb.toNat + 52 ≤ 2 ^ 22 * k) :
    AphroditeOs.loadMbinfo mem y.swapperPgDir.toNat pmb = some (mbinfoAt mem pmb) := by
  have hlength : (pmb + 44#32).toNat = pmb.toNat + 44 :=
    BitVec.toNat_add_of_lt (show pmb.toNat + 44 < 2 ^ 32 by omega)
  have haddr : (pmb + 48#32).toNat = pmb.toNat + 48 :=
    BitVec.toNat_add_of_lt (show pmb.toNat + 48 < 2 ^ 32 by omega)
  unfold AphroditeOs.loadMbinfo
  rw [h.load (windowTranslate_low (by omega)), Option.bind_some,
    h.load (windowTranslate_low (by omega)), Option.map_some, hlength, haddr, mbinfoAt]

end

section

variable {y : HeadSymbols} {mem : BitMemory} {k fuel : Nat} {ms : List Mmap} {pmb : Word}
  {s : Startup.StackMemory} {shows : BitMemory → BitMemory}

end

end AphroditeOs
