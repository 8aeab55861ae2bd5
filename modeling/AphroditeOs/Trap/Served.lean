import AphroditeOs.Trap.Fault

/-!
# Which interrupts are served

Runs from the delivery of an interrupt or exception up to the call of a C function, under the gates
that booting leaves and any global table; under the table of `head.S`; and with gates that cannot be
used.
-/

namespace AphroditeOs

/-- The gates are those of the boot, and different entries are at different addresses. -/
structure Platform.Booted (P : Platform) : Prop where
  idt : ∃ idt, P.idt = P.handlers.bootIdt idt
  apart : Function.Injective P.handlers.addr

/-- Runs that begin with a delivery. -/
def processorSystem (P : Platform) : Transition.System Processor where
  Init c := ∃ e m, c = .deliver e m
  Step := ProcessorStep P

theorem Entry.vector_lt (e : Entry) : e.vector < 256 := by
  cases e with
  | trap stub => cases stub <;> decide
  | irq line =>
    have hline := line.isLt
    show 0x20 + line.val < 256
    omega

-- Of the descriptor table only the gates of the entries matter.
theorem ProcessorStep.of_gate {P : Platform} {idt : IdtTable} {c c' : Processor}
    (hgate : ∀ e : Entry, decodeGate (idt e.vector) = P.gate e) (h : ProcessorStep P c c') :
    ProcessorStep { P with idt := idt } c c' := by
  cases h with
  | enter eflags cs eip code hcheck haddr =>
    rw [← hgate] at hcheck haddr
    exact .enter eflags cs eip code hcheck haddr
  | escalate hcheck hnext =>
    rw [← hgate] at hcheck
    exact .escalate hcheck hnext
  | shutdown hcheck hnext =>
    rw [← hgate] at hcheck
    exact .shutdown hcheck hnext
  | exec hi => exact .exec hi
  | fault hi => exact .fault hi
  | interrupt line => exact .interrupt line
  | nmi => exact .nmi

theorem processorStep_of_gate {P : Platform} {idt : IdtTable}
    (hgate : ∀ e : Entry, decodeGate (idt e.vector) = P.gate e) :
    ProcessorStep { P with idt := idt } = ProcessorStep P := by
  funext c c'
  have hback : ProcessorStep { P with idt := idt } c c' → ProcessorStep P c c' :=
    @ProcessorStep.of_gate { P with idt := idt } P.idt c c' fun e ↦ (hgate e).symm
  exact propext ⟨hback, fun h ↦ h.of_gate hgate⟩

/-! ## One placement of the code -/

/-- Entries of 16 bytes, the lines from 3 GB on and the exceptions a page above. -/
def spread : Handlers where
  ignoreInt := 0xC0002000#32
  trap t := 0xC0001000#32 + BitVec.ofNat 32 (16 * t.ctorIdx)
  irq line := 0xC0000000#32 + BitVec.ofNat 32 (16 * line)

theorem addr_spread_injective : Function.Injective spread.addr := by
  let index (w : Word) := ((w - 0xC0001000#32) / 16#32).toNat
  let place (w : Word) : Entry :=
    if w < 0xC0001000#32 then .irq (Fin.ofNat 16 ((w - 0xC0000000#32) / 16#32).toNat)
    else .trap (Stub.ofNat (if index w = 20 then 19 else index w))
  have hplace : ∀ e, place (spread.addr e) = e := by
    intro e
    cases e with
    | trap stub => cases stub <;> decide
    | irq line =>
      revert line
      decide
  exact Function.LeftInverse.injective hplace

def spreadPlatform (gdt : GdtTable) : Platform where
  gdt := gdt
  idt := spread.bootIdt fun _ ↦ ⟨0#32, 0#32⟩
  handlers := spread
  sym := ⟨fun _ ↦ 0xC0100000#32, 0xC0200000#32⟩

theorem booted_spreadPlatform (gdt : GdtTable) : (spreadPlatform gdt).Booted where
  idt := by
    refine ⟨fun _ ↦ ⟨0#32, 0#32⟩, ?_⟩
    dsimp only [spreadPlatform]
  apart := addr_spread_injective

/-- A machine in an empty loop. -/
def idle : Machine := ⟨fun _ ↦ 0#32, fun _ ↦ 0x68#16, false, ⟨fun _ ↦ 0#32, 0xC0300000#32⟩⟩

/-- A table with code at 0x60 and data at 0x18 and 0x28. -/
def flatGdt : GdtTable :=
  [0#64, 0#64, 0#64, 0x00cf92000000ffff#64, 0#64, 0x00cff2000000ffff#64, 0#64, 0#64, 0#64, 0#64,
    0#64, 0#64, 0x00cf9a000000ffff#64]

/-! ## The gates -/

section

variable (h : Handlers) (idt : IdtTable)

theorem exists_gate_trap {stub : Stub} (hstub : stub ≠ .doubleFault) :
    ∃ (dpl : BitVec 2) (type : BitVec 4), (type = 14#4 ∨ type = 15#4) ∧
      h.bootIdt idt stub.vector =
        setGate (dpl.setWidth 32) (type.setWidth 32) (h.trap stub.trapStub) := by
  have hvector : stub.vector < 0x20 ∨ stub.vector = 0x80 := by cases stub <;> decide
  rw [h.bootIdt_internal idt hvector]
  cases stub with
  | doubleFault => contradiction
  | int3 => exact ⟨3#2, 14#4, Or.inl rfl, rfl⟩
  | overflow => exact ⟨3#2, 15#4, Or.inr rfl, rfl⟩
  | bounds => exact ⟨3#2, 15#4, Or.inr rfl, rfl⟩
  | systemCall => exact ⟨3#2, 15#4, Or.inr rfl, rfl⟩
  | _ => exact ⟨0#2, 15#4, Or.inr rfl, rfl⟩

theorem gate_doubleFault :
    decodeGate (h.bootIdt idt 8) = ⟨0#32, kernelCs.setWidth 16, 0#2, 3#5, true⟩ := by
  rw [h.bootIdt_internal idt (by decide)]
  exact decodeGate_setGate 0#2 3#4 0#32

theorem gate_irq (line : Fin 16) :
    decodeGate (h.bootIdt idt (Handlers.firstExternalVector + line)) = interruptGate (h.irq line) := by
  have hfirst : Handlers.firstExternalVector = 0x20 := rfl
  rw [h.bootIdt_external idt (by omega) (by omega) (by omega), hfirst, Nat.add_sub_cancel_left,
    Handlers.interrupt, dif_pos line.isLt]
  exact decodeGate_setGate 0#2 14#4 (h.irq line)

end

theorem Gate.check_eq {g : Gate} (gdt : GdtTable) (htype : g.type = 14#5 ∨ g.type = 15#5)
    (hpresent : g.present = true) : g.check gdt = gdt.loadCode g.selector := by
  unfold Gate.check
  rw [if_neg fun hne ↦ htype.elim hne.1 hne.2, hpresent, if_neg Bool.noConfusion]

section

variable {P : Platform} {l : List Processor} {e e' : Entry} {m m' : Machine} {c c' : Processor}

theorem Platform.Booted.gate (hP : P.Booted) (he : e ≠ .trap .doubleFault) :
    (P.gate e).check P.gdt = P.gdt.loadCode (kernelCs.setWidth 16) ∧
      (P.gate e).offset = P.handlers.addr e := by
  obtain ⟨idt, hidt⟩ := hP.idt
  unfold Platform.gate
  rw [hidt]
  cases e with
  | irq line =>
    rw [show (Entry.irq line).vector = Handlers.firstExternalVector + line from rfl, gate_irq]
    exact ⟨Gate.check_eq _ (Or.inl rfl) rfl, rfl⟩
  | trap stub =>
    obtain ⟨dpl, type, htype, hgate⟩ :=
      exists_gate_trap P.handlers idt fun heq ↦ he (congrArg Entry.trap heq)
    rw [show (Entry.trap stub).vector = stub.vector from rfl, hgate, decodeGate_setGate]
    refine ⟨Gate.check_eq _ ?_ rfl, rfl⟩
    rcases htype with rfl | rfl
    · exact Or.inl rfl
    · exact Or.inr rfl

-- The gate of the double fault has a type that no gate has.
theorem Platform.Booted.check_doubleFault (hP : P.Booted) :
    (P.gate (.trap .doubleFault)).check P.gdt = some .generalProtection := by
  obtain ⟨idt, hidt⟩ := hP.idt
  unfold Platform.gate
  rw [hidt, show (Entry.trap .doubleFault).vector = 8 from rfl, gate_doubleFault]
  rfl

/-! ## Runs -/

/-- The last delivery of a run is that of `e` to `m`, the processor has gone from `m` into the entry
with the machine `m'`, and has run nothing else since. -/
def LastDelivery (P : Platform) (l : List Processor) (e : Entry) (m m' : Machine) : Prop :=
  ∃ pre post, l = pre ++ .deliver e m :: .running e (e.code P.sym) m' :: post ∧
    ∀ c ∈ post, ∃ code m'', c = .running e code m''

/-- An entry runs since its delivery, the last one of the run, and each selector that it has loaded
so far was accepted. -/
structure Ran (P : Platform) (l : List Processor) (e : Entry) (code : List Instr) (m : Machine) :
    Prop where
  entered : P.gdt.loadCode (kernelCs.setWidth 16) = none
  entry : e ≠ .trap .doubleFault
  ran : ∃ (before : List Instr) (m₀ : Machine) (eflags cs eip errorCode : Word),
    LastDelivery P l e m₀ (m₀.pushFrame e eflags cs eip errorCode) ∧
      e.code P.sym = before ++ code ∧
      runChecked P.gdt before (m₀.pushFrame e eflags cs eip errorCode) = .ok m

def ProcessorInv (P : Platform) (l : List Processor) : Processor → Prop
  | .running e code m => Ran P l e code m
  | _ => True

theorem LastDelivery.append (h : LastDelivery P l e m m') (code : List Instr) (m'' : Machine) :
    LastDelivery P (l ++ [.running e code m'']) e m m' := by
  obtain ⟨pre, post, rfl, hpost⟩ := h
  refine ⟨pre, post ++ [.running e code m''], ?_, fun c hc ↦ ?_⟩
  · rw [List.append_assoc, List.cons_append, List.cons_append]
  · rcases List.mem_append.mp hc with hc | hc
    · exact hpost c hc
    · exact ⟨code, m'', List.mem_singleton.mp hc⟩

theorem Ran.enter (hP : P.Booted) (l : List Processor) (eflags cs eip code : Word)
    (hcheck : (P.gate e).check P.gdt = none) (haddr : P.handlers.addr e' = (P.gate e).offset) :
    Ran P (l ++ [.deliver e m] ++ [.running e' (e'.code P.sym) (m.pushFrame e eflags cs eip code)])
      e' (e'.code P.sym) (m.pushFrame e eflags cs eip code) := by
  have he : e ≠ .trap .doubleFault := by
    rintro rfl
    rw [hP.check_doubleFault] at hcheck
    contradiction
  obtain ⟨hgate, hoffset⟩ := hP.gate he
  obtain rfl := hP.apart (haddr.trans hoffset)
  refine ⟨hgate ▸ hcheck, he, [], m, eflags, cs, eip, code, ⟨l, [], ?_, nofun⟩, rfl, rfl⟩
  rw [List.append_assoc, List.singleton_append]

theorem Ran.exec {i : Instr} {code : List Instr} (h : Ran P l e (i :: code) m)
    (hi : execChecked P.gdt m i = .ok m') : Ran P (l ++ [.running e code m']) e code m' := by
  obtain ⟨before, m₀, eflags, cs, eip, errorCode, hlast, hcode, hrun⟩ := h.ran
  refine ⟨h.entered, h.entry, before ++ [i], m₀, eflags, cs, eip, errorCode, hlast.append code m',
    ?_, ?_⟩
  · rw [hcode, List.append_assoc, List.singleton_append]
  · rw [runChecked_append, hrun]
    show List.foldlM _ _ _ = _
    rw [List.foldlM_cons, hi]
    rfl

theorem ProcessorInv.step (hP : P.Booted) (hc : ProcessorInv P (l ++ [c]) c)
    (h : ProcessorStep P c c') : ProcessorInv P (l ++ [c] ++ [c']) c' := by
  cases h with
  | enter eflags cs eip code hcheck haddr => exact Ran.enter hP l eflags cs eip code hcheck haddr
  | exec hi => exact Ran.exec hc hi
  | escalate => trivial
  | shutdown => trivial
  | fault => trivial
  | interrupt => trivial
  | nmi => trivial

theorem processorInv_of_isChain (hP : P.Booted)
    (hl : (l ++ [c]).IsChain (ProcessorStep P)) (hhead : (l ++ [c]).head? = some (.deliver e m)) :
    ProcessorInv P (l ++ [c]) c := by
  induction l using List.reverseRecOn generalizing c with
  | nil =>
    obtain rfl : c = .deliver e m := Option.some.inj hhead
    trivial
  | append_singleton l b ih =>
    obtain ⟨hchain, -, hstep⟩ := List.isChain_append.mp hl
    have hb : (l ++ [b]).head? = some (.deliver e m) := by
      rwa [List.head?_append_of_ne_nil _ (by simp)] at hhead
    exact (ih hchain hb).step hP (hstep b (by simp) c rfl)

/-- A run as the list of its states. -/
theorem exists_isChain_of_steps
    (hsteps : Transition.Steps (processorSystem P) (.deliver e m) c) :
    ∃ l, (l ++ [c]).IsChain (ProcessorStep P) ∧ (l ++ [c]).head? = some (.deliver e m) := by
  obtain ⟨l, hl, hlast⟩ := List.exists_isChain_cons_of_relationReflTransGen hsteps
  refine ⟨(Processor.deliver e m :: l).dropLast, ?_, ?_⟩
  · rwa [← hlast, List.dropLast_append_getLast]
  · rw [← hlast, List.dropLast_append_getLast]
    rfl

theorem exists_ran_of_steps {code : List Instr} (hP : P.Booted)
    (hsteps : Transition.Steps (processorSystem P) (.deliver e m) (.running e' code m')) :
    ∃ l, Ran P l e' code m' := by
  obtain ⟨l, hl, hhead⟩ := exists_isChain_of_steps hsteps
  exact ⟨_, processorInv_of_isChain hP hl hhead⟩

theorem Ran.through (h : Ran P l e [] m) : P.gdt.loadData e.dataSelector = none ∧
    ∃ (m₀ : Machine) (eflags cs eip errorCode : Word),
      LastDelivery P l e m₀ (m₀.pushFrame e eflags cs eip errorCode) ∧
        m = run (e.code P.sym) (m₀.pushFrame e eflags cs eip errorCode) := by
  obtain ⟨before, m₀, eflags, cs, eip, errorCode, hlast, hcode, hrun⟩ := h.ran
  rw [List.append_nil] at hcode
  rw [← hcode, runChecked_code] at hrun
  cases hload : P.gdt.loadData e.dataSelector with
  | some f =>
    rw [hload] at hrun
    contradiction
  | none =>
    rw [hload] at hrun
    exact ⟨rfl, m₀, eflags, cs, eip, errorCode, hlast, (Except.ok.inj hrun).symm⟩

-- Instructions whose checks pass are steps.
theorem steps_running (code rest : List Instr)
    (hrun : runChecked P.gdt code m = .ok m') :
    Transition.Steps (processorSystem P) (.running e (code ++ rest) m) (.running e rest m') := by
  induction code generalizing m with
  | nil =>
    obtain rfl := Except.ok.inj hrun
    exact .refl
  | cons i code ih =>
    unfold runChecked at hrun
    rw [List.foldlM_cons] at hrun
    cases hi : execChecked P.gdt m i with
    | error f =>
      rw [hi] at hrun
      contradiction
    | ok m₁ =>
      rw [hi] at hrun
      exact .head (ProcessorStep.exec hi) (ih hrun)

/-- The way into an entry. -/
theorem step_enter (hP : P.Booted) (he : e ≠ .trap .doubleFault)
    (hcode : P.gdt.loadCode (kernelCs.setWidth 16) = none) (m : Machine) :
    ProcessorStep P (.deliver e m)
      (.running e (e.code P.sym) (m.pushFrame e 0#32 0#32 0#32 0#32)) := by
  obtain ⟨hgate, hoffset⟩ := hP.gate he
  exact .enter _ _ _ _ (hgate.trans hcode) hoffset.symm

theorem steps_through (hP : P.Booted) (he : e ≠ .trap .doubleFault)
    (hcode : P.gdt.loadCode (kernelCs.setWidth 16) = none)
    (hdata : P.gdt.loadData e.dataSelector = none) (m : Machine) :
    ∃ m', Transition.Steps (processorSystem P) (.deliver e m) (.running e [] m') := by
  have hrun := runChecked_code P.gdt P.sym e (m.pushFrame e 0#32 0#32 0#32 0#32)
  rw [hdata] at hrun
  refine ⟨run (e.code P.sym) (m.pushFrame e 0#32 0#32 0#32 0#32),
    .head (step_enter hP he hcode m) ?_⟩
  have hsteps := steps_running (e := e) (e.code P.sym) [] hrun
  rwa [List.append_nil] at hsteps

/-- **The end of the entry code.**  The entry code of an interrupt or exception can run through to
its `jmp do_IRQ` or `call edi` with no such end of another entry before exactly when the global table
lets the gates load `cs` and the code load `ds`; that of a double fault never does. -/
theorem reached_iff (hP : P.Booted) (e : Entry) (m : Machine) :
    (∃ m', Transition.Steps (processorSystem P) (.deliver e m) (.running e [] m')) ↔
      e ≠ .trap .doubleFault ∧ P.gdt.loadCode (kernelCs.setWidth 16) = none ∧
        P.gdt.loadData e.dataSelector = none := by
  constructor
  · rintro ⟨m', hsteps⟩
    obtain ⟨l, hran⟩ := exists_ran_of_steps hP hsteps
    exact ⟨hran.entry, hran.entered, hran.through.1⟩
  · rintro ⟨he, hcode, hdata⟩
    exact steps_through hP he hcode hdata m

end

/-- A keyboard interrupt that gets to `do_IRQ`. -/
theorem reached_flatGdt : ∃ m', Transition.Steps (processorSystem (spreadPlatform flatGdt))
    (.deliver (.irq 1) idle) (.running (.irq 1) [] m') :=
  (reached_iff (booted_spreadPlatform flatGdt) (.irq 1) idle).mpr ⟨nofun, by decide, by decide⟩

/-! ## What `do_IRQ` is given -/

/-- What `SAVE_ALL` and the stub of a line leave on the stack for `do_IRQ`, below its `regs` the
return address; `ds` and `es` are the words pushed for the selectors. -/
def irqFrame (ret : Word) (line : Fin 16) (m : Machine) (ds es eip cs eflags : Word) : List Word :=
  [ret, m.reg .ebx, m.reg .ecx, m.reg .edx, m.reg .esi, m.reg .edi, m.reg .ebp, m.reg .eax,
    ds, es, pushedIrq line, eip, cs, eflags]

theorem holds_irqInterrupt (ret : Word) (line : Fin 16) (m : Machine)
    (eflags cs eip errorCode : Word) :
    (run (irqInterrupt ret line) (m.pushFrame (.irq line) eflags cs eip errorCode)).stack.Holds
      (irqFrame ret line m ((m.seg .ds).setWidth 32) ((m.seg .es).setWidth 32) eip cs eflags) := by
  have hnil : m.stack.Holds [] := ⟨by decide, fun _ hk ↦ absurd hk (Nat.not_lt_zero _)⟩
  exact hnil.pushAll (irqFrame ret line m ((m.seg .ds).setWidth 32) ((m.seg .es).setWidth 32)
    eip cs eflags).reverse (show 0 + 14 < 2 ^ 29 by decide)

/-- What `do_IRQ` finds at the end of a run, and which line it acknowledges. -/
structure HandedToDoIRQ (P : Platform) (l : List Processor) (line : Fin 16) (m' : Machine) :
    Prop where
  frame : ∃ (m₀ : Machine) (eflags cs eip errorCode ds es : Word),
    LastDelivery P l (.irq line) m₀ (m₀.pushFrame (.irq line) eflags cs eip errorCode) ∧
      ds.setWidth 16 = m₀.seg .ds ∧ es.setWidth 16 = m₀.seg .es ∧
      m'.stack.Holds (irqFrame P.sym.retFromIntr line m₀ ds es eip cs eflags)
  ack : ∀ s, doIRQ (m'.stack.load 10) s = s.ack .c line

/-- **The line that `do_IRQ` acknowledges.**  Whatever came in before, the entry code of a line that
gets to `do_IRQ` comes from the last delivery of the run, which was one of that line; `regs` has what
this delivery has interrupted, and the number of the line. -/
theorem doIRQ_of_isChain {P : Platform} (hP : P.Booted) {e : Entry} {m m' : Machine}
    {l : List Processor} {line : Fin 16} (hl : l.IsChain (ProcessorStep P))
    (hhead : l.head? = some (.deliver e m)) (hlast : l.getLast? = some (.running (.irq line) [] m')) :
    HandedToDoIRQ P l line m' := by
  obtain ⟨pre, rfl⟩ := List.getLast?_eq_some_iff.mp hlast
  have hran : Ran P _ (.irq line) [] m' := processorInv_of_isChain hP hl hhead
  obtain ⟨-, m₀, eflags, cs, eip, errorCode, hdelivery, rfl⟩ := hran.through
  have hholds := holds_irqInterrupt P.sym.retFromIntr line m₀ eflags cs eip errorCode
  refine ⟨⟨m₀, eflags, cs, eip, errorCode, _, _, hdelivery, ?_, ?_, hholds⟩, fun s ↦ ?_⟩
  · exact BitVec.setWidth_setWidth_of_le _ (by decide)
  · exact BitVec.setWidth_setWidth_of_le _ (by decide)
  · show doIRQ ((run (irqInterrupt P.sym.retFromIntr line) _).stack.load 10) s = _
    rw [hholds.load (show 10 < 14 by decide)]
    show s.ack .c (irqNo (pushedIrq line)) = _
    rw [irqNo_pushedIrq]

/-- NMI in the code of a division by zero, and line 1 in the code of NMI. -/
theorem handedToDoIRQ_nested : ∃ (l : List Processor) (m m' : Machine),
    l.IsChain (ProcessorStep (spreadPlatform flatGdt)) ∧
      l.head? = some (.deliver (.trap .divideError) idle) ∧ .deliver (.trap .nmi) m ∈ l ∧
      HandedToDoIRQ (spreadPlatform flatGdt) l 1 m' := by
  have hP := booted_spreadPlatform flatGdt
  have hcode : flatGdt.loadCode (kernelCs.setWidth 16) = none := by decide
  obtain ⟨m₁, hm₁⟩ : ∃ m₁, m₁ = idle.pushFrame (.trap .divideError) 0#32 0#32 0#32 0#32 := ⟨_, rfl⟩
  obtain ⟨m₂, hm₂⟩ : ∃ m₂, m₂ = m₁.pushFrame (.trap .nmi) 0#32 0#32 0#32 0#32 := ⟨_, rfl⟩
  obtain ⟨m', hsteps⟩ := steps_through (e := .irq 1) hP nofun hcode (by decide) m₂
  obtain ⟨l, hl, hhead⟩ := exists_isChain_of_steps hsteps
  have hbefore : [.deliver (.trap .divideError) idle,
      .running (.trap .divideError) ((Entry.trap .divideError).code (spreadPlatform flatGdt).sym) m₁,
      .deliver (.trap .nmi) m₁,
      .running (.trap .nmi) ((Entry.trap .nmi).code (spreadPlatform flatGdt).sym) m₂].IsChain
        (ProcessorStep (spreadPlatform flatGdt)) := by
    rw [List.isChain_cons_cons, List.isChain_cons_cons, List.isChain_cons_cons]
    refine ⟨?_, .nmi, ?_, List.isChain_singleton _⟩
    · rw [hm₁]
      exact step_enter (e := .trap .divideError) hP nofun hcode idle
    · rw [hm₂]
      exact step_enter (e := .trap .nmi) hP nofun hcode m₁
  have hall := hbefore.append hl fun c hc c' hc' ↦ by
    obtain rfl := Option.some.inj hc
    obtain rfl := Option.some.inj (hhead.symm.trans hc')
    exact .interrupt 1
  refine ⟨_, m₁, m', hall, rfl, by simp, doIRQ_of_isChain hP hall rfl ?_⟩
  rw [← List.append_assoc]
  exact List.getLast?_concat

/-! ## The table of `head.S` -/

/-- `cpu_gdt_table` of `head.S`. -/
def cpuGdtTable : GdtTable :=
  List.replicate 12 0#64 ++
  [0x00cf9a000000ffff#64, 0x00cf92000000ffff#64, 0x00cffa000000ffff#64, 0x00cff2000000ffff#64] ++
  List.replicate 2 0#64 ++
  [0x00c09a0000000000#64, 0x00809a0000000000#64, 0x0080920000000000#64, 0x0080920000000000#64,
    0x0080920000000000#64, 0x00409a0000000000#64, 0x00009a0000000000#64, 0x0040920000000000#64,
    0x0000920000000000#64] ++
  List.replicate 5 0#64

theorem loadCode_cpuGdtTable : cpuGdtTable.loadCode (kernelCs.setWidth 16) = none := by decide

theorem loadData_cpuGdtTable (e : Entry) :
    cpuGdtTable.loadData e.dataSelector = some .generalProtection := by
  cases e with
  | trap stub =>
    show cpuGdtTable.loadData (userDs.setWidth 16) = some .generalProtection
    decide
  | irq line =>
    show cpuGdtTable.loadData 0x18#16 = some .generalProtection
    decide

/-! ### Nothing is served -/

/-- Every interrupt and exception ends in one more fault, and each takes more of the stack, as long as
there is a stack that is neither code nor a table. -/
structure NeverServed (P : Platform) (e : Entry) (m : Machine) : Prop where
  never : ∀ e' m', ¬Transition.Steps (processorSystem P) (.deliver e m) (.running e' [] m')
  goesOn : ∀ c, Transition.Steps (processorSystem P) (.deliver e m) c → ∃ c', ProcessorStep P c c'
  sinks : ∀ n, ∃ f m', Transition.Steps (processorSystem P) (.deliver e m) (.deliver (.trap f) m') ∧
    m'.stack.esp = m.stack.esp - BitVec.ofNat 32 (e.depth + 88 * n)

/-- No double fault and no shutdown. -/
def NoDouble : Processor → Prop
  | .deliver e _ => e ≠ .trap .doubleFault
  | .running _ _ _ => True
  | .shutdown => False

section

variable {P : Platform} {e : Entry} {m m' : Machine} {c c' : Processor}

theorem SegmentFault.stub_ne (f : SegmentFault) : Entry.trap f.stub ≠ .trap .doubleFault := by
  cases f <;> decide

theorem NoDouble.step (hP : P.Booted) (hcode : P.gdt.loadCode (kernelCs.setWidth 16) = none)
    (hc : NoDouble c) (h : ProcessorStep P c c') : NoDouble c' := by
  cases h with
  | enter => trivial
  | exec => trivial
  | fault => exact SegmentFault.stub_ne _
  | interrupt => exact nofun
  | nmi => exact nofun
  | escalate hcheck =>
    rw [(hP.gate hc).1, hcode] at hcheck
    contradiction
  | shutdown hcheck =>
    rw [(hP.gate hc).1, hcode] at hcheck
    contradiction

theorem exists_step_running (P : Platform) (e : Entry) (i : Instr) (code : List Instr)
    (m : Machine) : ∃ c', ProcessorStep P (.running e (i :: code) m) c' := by
  cases hi : execChecked P.gdt m i with
  | ok m' => exact ⟨_, .exec hi⟩
  | error f => exact ⟨_, .fault hi⟩

-- From a delivery to the fault of the code that it leads to.
theorem steps_fault (hP : P.Booted) (he : e ≠ .trap .doubleFault)
    (hcode : P.gdt.loadCode (kernelCs.setWidth 16) = none) {f : SegmentFault}
    (hdata : P.gdt.loadData e.dataSelector = some f) (m : Machine) :
    ∃ m', Transition.Steps (processorSystem P) (.deliver e m) (.deliver (.trap f.stub) m') ∧
      m'.stack.esp = m.stack.esp - BitVec.ofNat 32 e.depth := by
  obtain ⟨post, r, v, hv, hloads⟩ := loadsConstant_code P.sym e
  have hrun := runChecked_plain P.gdt hloads.pre (m.pushFrame e 0#32 0#32 0#32 0#32)
  have hsteps := steps_running (e := e) (e.prologue P.sym)
    (.movSeg .ds r :: .movSeg .es r :: post) hrun
  rw [← hloads.eq] at hsteps
  refine ⟨_, (Relation.ReflTransGen.head (step_enter hP he hcode m) hsteps).tail (.fault ?_),
    esp_prologue P.sym e m 0#32 0#32 0#32 0#32⟩
  exact hloads.runChecked_of_some (hv ▸ hdata) _

theorem neverServed_of_loadData (hP : P.Booted) (he : e ≠ .trap .doubleFault)
    (hcode : P.gdt.loadCode (kernelCs.setWidth 16) = none)
    (hdata : ∀ e : Entry, ∃ f, P.gdt.loadData e.dataSelector = some f) (m : Machine) :
    NeverServed P e m := by
  have hnever : ∀ e' m', ¬Transition.Steps (processorSystem P) (.deliver e m) (.running e' [] m') := by
    intro e' m' hsteps
    obtain ⟨f, hf⟩ := hdata e'
    obtain ⟨l, hran⟩ := exists_ran_of_steps hP hsteps
    rw [hran.through.1] at hf
    contradiction
  refine ⟨hnever, fun c hsteps ↦ ?_, fun n ↦ ?_⟩
  · have hno : NoDouble c := Transition.steps_keep (S := processorSystem P)
      (fun _ _ hc h ↦ NoDouble.step hP hcode hc h) (show NoDouble (.deliver e m) from he) hsteps
    cases c with
    | deliver e' m' =>
      obtain ⟨hgate, hoffset⟩ := hP.gate hno
      exact ⟨_, .enter 0#32 0#32 0#32 0#32 (hgate.trans hcode) hoffset.symm⟩
    | shutdown => exact hno.elim
    | running e' code m' =>
      cases code with
      | nil => exact absurd hsteps (hnever e' m')
      | cons i code => exact exists_step_running P e' i code m'
  · -- one fault after the other, each in the code that the last one has led to
    induction n with
    | zero =>
      obtain ⟨f, hf⟩ := hdata e
      obtain ⟨m', hsteps, hesp⟩ := steps_fault hP he hcode hf m
      exact ⟨f.stub, m', hsteps, hesp⟩
    | succ n ih =>
      obtain ⟨stub, m', hsteps, hesp⟩ := ih
      have hno : NoDouble (.deliver (.trap stub) m') := Transition.steps_keep (S := processorSystem P)
        (fun _ _ hc h ↦ NoDouble.step hP hcode hc h) (show NoDouble (.deliver e m) from he) hsteps
      obtain ⟨f, hf⟩ := hdata (.trap stub)
      obtain ⟨m'', hsteps', hesp'⟩ := steps_fault hP hno hcode hf m'
      refine ⟨f.stub, m'', hsteps.trans hsteps', ?_⟩
      rw [hesp', hesp, show e.depth + 88 * (n + 1) = (e.depth + 88 * n) + 88 by omega,
        BitVec.ofNat_add _ 88, show (Entry.trap stub).depth = 88 from rfl]
      bv_omega

theorem NeverServed.of_gate {idt : IdtTable}
    (hgate : ∀ e : Entry, decodeGate (idt e.vector) = P.gate e)
    (h : NeverServed { P with idt := idt } e m) : NeverServed P e m := by
  have hstep := processorStep_of_gate hgate
  have hsystem : processorSystem { P with idt := idt } = processorSystem P := by
    unfold processorSystem
    rw [hstep]
  exact ⟨hsystem ▸ h.never, hstep ▸ hsystem ▸ h.goesOn, hsystem ▸ h.sinks⟩

/-- **Under `cpu_gdt_table` nothing is served.**  No run from any interrupt or exception comes to a C
function, and none ends. -/
theorem neverServed_cpuGdtTable (hP : P.Booted) (hgdt : P.gdt = cpuGdtTable)
    (he : e ≠ .trap .doubleFault) (m : Machine) : NeverServed P e m := by
  apply neverServed_of_loadData hP he
  · rw [hgdt]
    exact loadCode_cpuGdtTable
  · intro e'
    rw [hgdt]
    exact ⟨_, loadData_cpuGdtTable e'⟩

end

/-- The timer of a kernel that `head.S` has booted. -/
theorem neverServed_timer : NeverServed (spreadPlatform cpuGdtTable) (.irq 0) idle :=
  neverServed_cpuGdtTable (e := .irq 0) (booted_spreadPlatform cpuGdtTable) rfl nofun idle

/-! ## Gates that cannot be used -/

/-- Every run ends in the shutdown, with nothing pushed, after three steps at most. -/
structure ShutsDown (P : Platform) (e : Entry) (m : Machine) : Prop where
  only : ∀ c, Transition.Steps (processorSystem P) (.deliver e m) c →
    c = .shutdown ∨ ∃ e', c = .deliver e' m
  ends : ∀ c, Transition.Steps (processorSystem P) (.deliver e m) c →
    Transition.Steps (processorSystem P) c .shutdown

section

variable {P : Platform} {e : Entry} {m : Machine} {c c' : Processor}

theorem shutsDown_of_check (hcheck : ∀ e, (P.gate e).check P.gdt = some .generalProtection)
    (e : Entry) (m : Machine) : ShutsDown P e m := by
  have hdouble : ProcessorStep P (.deliver (.trap .doubleFault) m) .shutdown :=
    .shutdown (hcheck _) rfl
  have hcontributory : ∀ stub : Stub, stub ≠ .doubleFault → stub.isContributory = true →
      Transition.Steps (processorSystem P) (.deliver (.trap stub) m) .shutdown := by
    intro stub hstub hcon
    refine .head (ProcessorStep.escalate (hcheck _) ?_) (.single hdouble)
    cases stub <;> first | rfl | contradiction
  have hprotection := hcontributory .generalProtection nofun rfl
  have hends : ∀ e, Transition.Steps (processorSystem P) (.deliver e m) .shutdown := by
    intro e
    cases e with
    | irq line => exact .head (ProcessorStep.escalate (hcheck _) rfl) hprotection
    | trap stub =>
      by_cases hstub : stub = .doubleFault
      · exact hstub ▸ .single hdouble
      · cases hcon : stub.isContributory with
        | true => exact hcontributory stub hstub hcon
        | false =>
          refine .head (ProcessorStep.escalate (hcheck _) ?_) hprotection
          cases stub <;> first | rfl | contradiction
  have honly : ∀ c, Transition.Steps (processorSystem P) (.deliver e m) c →
      c = .shutdown ∨ ∃ e', c = .deliver e' m := by
    intro c hsteps
    refine Transition.steps_keep (S := processorSystem P)
      (I := fun c ↦ c = .shutdown ∨ ∃ e', c = .deliver e' m) (fun c c' hc h ↦ ?_)
      (Or.inr ⟨e, rfl⟩) hsteps
    rcases hc with rfl | ⟨e', rfl⟩
    · cases h
    · cases h with
      | enter _ _ _ _ hnone =>
        rw [hcheck] at hnone
        contradiction
      | escalate => exact Or.inr ⟨_, rfl⟩
      | shutdown => exact Or.inl rfl
  refine ⟨honly, fun c hsteps ↦ ?_⟩
  rcases honly c hsteps with rfl | ⟨e', rfl⟩
  · exact .refl
  · exact hends e'

end

end AphroditeOs
