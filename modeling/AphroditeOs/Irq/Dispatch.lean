import AphroditeOs.Irq.Pic
import AphroditeOs.Irq.Line

/-!
# Interrupt dispatch (`do_IRQ` of `kernel/irq.c`, `__do_IRQ` of `kernel/irq.cc`)

An interrupt gate clears the interrupt flag, so that everything between two actions is one step
except where `handle_IRQ_event` has set the flag again.
-/

namespace AphroditeOs

/-- What the stub of a line pushes: `pushl $nr-256`. -/
def pushedIrq (irq : Nat) : BitVec 32 := BitVec.ofNat 32 irq - 256#32

/-- `orig_eax & 0xFF` -/
def irqNo (origEax : BitVec 32) : Nat := (origEax &&& 0xFF#32).toNat

theorem irqNo_pushedIrq (irq : Fin 16) : irqNo (pushedIrq irq) = irq := by
  revert irq
  decide

def HwIrqController.ack (file : IrqFile) (irq : Nat) (s : IrqState) : HwIrqController → IrqState
  | .i8259AIrqType => s.maskAndAck8259AIrq file irq
  | .noIrqType => s

/-- The `end` of the controller. -/
def HwIrqController.finish (irq : Nat) (s : IrqState) : HwIrqController → IrqState
  | .i8259AIrqType => s.end8259AIrq irq
  | .noIrqType => s

namespace IrqState

def ack (file : IrqFile) (irq : Nat) (s : IrqState) : IrqState :=
  (s.irqDescTable irq).handler.ack file irq s

def finish (irq : Nat) (s : IrqState) : IrqState :=
  (s.irqDescTable irq).handler.finish irq s

def setStatus (irq : Nat) (status : BitVec 32) (s : IrqState) : IrqState :=
  { s with irqDescTable :=
      Function.update s.irqDescTable irq { s.irqDescTable irq with status := status } }

end IrqState

/-! ## `irq.c` -/

def doIRQ (origEax : BitVec 32) (s : IrqState) : IrqState :=
  s.ack .c (irqNo origEax)

/-! ## `irq.cc` -/

def saInterrupt : BitVec 32 := 1#32

/-- A `__do_IRQ` in `handle_IRQ_event`. -/
structure Activation where
  irq : Fin 16
  -- its local `action`, and what is left to call of it
  action : List IrqAction
  rest : List IrqAction
  -- the interrupt flag
  enabled : Bool
  deriving DecidableEq, Repr

/-- The entry of `handle_IRQ_event`. -/
def handleIRQEvent (irq : Fin 16) (action : List IrqAction) : Activation :=
  ⟨irq, action, action, match action with
    | a :: _ => decide (a.flags &&& saInterrupt = 0#32)
    | [] => false⟩

/-- `__do_IRQ` up to its first branch: the actions to be called, if any. -/
def enterIRQ (irq : Nat) (s : IrqState) : List IrqAction × IrqState :=
  let s := s.ack .cc irq
  let status := (s.irqDescTable irq).status &&& ~~~irqReplay ||| irqPending
  if status &&& (irqDisabled ||| irqInprogress) = 0#32 then
    ((s.irqDescTable irq).action, s.setStatus irq (status &&& ~~~irqPending ||| irqInprogress))
  else ([], s.setStatus irq status)

/-- The activations on the stack of the CPU, the innermost first, and what has happened. -/
structure Dispatch where
  irqs : IrqState
  stack : List Activation
  trace : List (Fin 16 × LineEvent IrqAction)

inductive DispatchOp where
  -- `inService` is false for a spurious interrupt
  | arrive (irq : Fin 16) (inService : Bool)
  | call
  | leave
  deriving DecidableEq, Repr

def lineEvents (irq : Fin 16) (trace : List (Fin 16 × LineEvent IrqAction)) :
    List (LineEvent IrqAction) :=
  (trace.filter fun e ↦ e.1 = irq).map Prod.snd

namespace Dispatch

def interruptible (d : Dispatch) : Bool :=
  match d.stack with
  | [] => true
  | a :: _ => a.enabled

/-- `__do_IRQ` up to its first action, or to its end when it has nothing to call. -/
def arrive (irq : Fin 16) (d : Dispatch) : Dispatch :=
  let (action, s) := enterIRQ irq d.irqs
  if action = [] then
    -- `goto out`
    { d with irqs := s.finish irq, trace := d.trace ++ [(irq, .arrive)] }
  else
    ⟨s, handleIRQEvent irq action :: d.stack, d.trace ++ [(irq, .arrive)] ++ [(irq, .enter)]⟩

/-- `__do_IRQ` from the end of `handle_IRQ_event` on; `stack` is what it has interrupted. -/
def leave (irq : Fin 16) (action : List IrqAction) (stack : List Activation) (d : Dispatch) :
    Dispatch :=
  let status := (d.irqs.irqDescTable irq).status
  if status &&& irqPending ≠ 0#32 then
    ⟨d.irqs.setStatus irq (status &&& ~~~irqPending),
      handleIRQEvent irq action :: stack, d.trace ++ [(irq, .leave)] ++ [(irq, .enter)]⟩
  else
    ⟨(d.irqs.setStatus irq (status &&& ~~~irqInprogress)).finish irq, stack,
      d.trace ++ [(irq, .leave)]⟩

def step (d : Dispatch) : DispatchOp → Option Dispatch
  | .arrive irq inService =>
    if d.interruptible then
      some ({ d with irqs := if inService then d.irqs.deliver irq else d.irqs }.arrive irq)
    else none
  | .call =>
    match d.stack with
    | ⟨irq, action, a :: rest, enabled⟩ :: stack =>
      some { d with
        stack := ⟨irq, action, rest, enabled⟩ :: stack
        trace := d.trace ++ [(irq, .call a)] }
    | _ => none
  | .leave =>
    match d.stack with
    | ⟨irq, action, [], _⟩ :: stack => some (d.leave irq action stack)
    | _ => none

def frames (irq : Fin 16) (d : Dispatch) : List Activation :=
  d.stack.filter fun a ↦ a.irq = irq

def history (irq : Fin 16) (d : Dispatch) : List (LineEvent IrqAction) := lineEvents irq d.trace

/-- What a line sees of the dispatch. -/
def line (irq : Fin 16) (d : Dispatch) : LineState IrqAction where
  pending := (d.irqs.irqDescTable irq).status.getLsbD 2
  current := (d.frames irq).head?.map Activation.rest
  masked := d.irqs.cachedIrqMask.getLsbD irq
  history := d.history irq

end Dispatch

/-- The dispatch of a CPU that is in no handler, after drivers have set up the descriptors. -/
def dispatchSystem (status : Nat → BitVec 32) (action : Nat → List IrqAction)
    (mask : BitVec 32) : Transition.System Dispatch where
  Init d := d = ⟨IrqState.withDrivers status action mask, [], []⟩
  Step d t := ∃ op, d.step op = some t

/-! ## One line of the driver -/

namespace IrqState

/-- Nothing of the other lines changes, and of this one the status and the mask bit. -/
structure Changes (k : Nat) (s t : IrqState) : Prop where
  masks : ∀ i, i ≠ k → t.cachedIrqMask.getLsbD i = s.cachedIrqMask.getLsbD i
  table : ∀ i, i ≠ k → t.irqDescTable i = s.irqDescTable i
  handler : (t.irqDescTable k).handler = (s.irqDescTable k).handler
  action : (t.irqDescTable k).action = (s.irqDescTable k).action
  synced : Synced s → Synced t

variable {k : Nat} {s t u : IrqState}

theorem Changes.refl (k : Nat) (s : IrqState) : Changes k s s :=
  ⟨fun _ _ ↦ rfl, fun _ _ ↦ rfl, rfl, rfl, id⟩

theorem Changes.trans (h : Changes k s t) (h' : Changes k t u) : Changes k s u :=
  ⟨fun i hi ↦ (h'.masks i hi).trans (h.masks i hi), fun i hi ↦ (h'.table i hi).trans (h.table i hi),
    h'.handler.trans h.handler, h'.action.trans h.action, fun hs ↦ h'.synced (h.synced hs)⟩

theorem Changes.wired (h : Changes k s t)
    (hwired : ∀ i : Fin 16, (s.irqDescTable i).handler = .i8259AIrqType) (i : Fin 16) :
    (t.irqDescTable i).handler = .i8259AIrqType := by
  by_cases hi : i.val = k
  · rw [hi, h.handler, ← hi, hwired]
  · rw [h.table i hi, hwired]

theorem SetsMask.changes {b : Bool} (h : SetsMask k b s t) : Changes k s t :=
  ⟨h.others, fun _ _ ↦ by rw [h.table], by rw [h.table], by rw [h.table], h.synced⟩

@[simp]
theorem status_setStatus (status : BitVec 32) :
    ((s.setStatus k status).irqDescTable k).status = status := by
  rw [setStatus]
  simp

theorem changes_setStatus (status : BitVec 32) : Changes k s (s.setStatus k status) := by
  constructor
  · intro i _
    rfl
  · intro i hi
    exact Function.update_of_ne hi _ _
  · rw [setStatus]
    simp
  · rw [setStatus]
    simp
  · intro hs
    exact ⟨hs.master, hs.slave⟩

theorem ack_sets (file : IrqFile) (hk : k < 16)
    (hwired : (s.irqDescTable k).handler = .i8259AIrqType) : SetsMask k true s (s.ack file k) := by
  rw [ack, hwired]
  exact maskAndAck8259AIrq_sets file hk

theorem and_busy_eq_zero_iff (status : BitVec 32) :
    status &&& (irqDisabled ||| irqInprogress) = 0#32 ↔
      status.getLsbD 1 = false ∧ status.getLsbD 0 = false := by
  rw [BitVec.and_or_distrib_left, BitVec.or_eq_zero_iff]
  exact and_congr (and_shiftLeft_eq_zero_iff (show 1 < 16 by decide) status)
    (and_shiftLeft_eq_zero_iff (show 0 < 16 by decide) status)

theorem and_pending_eq_zero_iff (status : BitVec 32) :
    status &&& irqPending = 0#32 ↔ status.getLsbD 2 = false :=
  and_shiftLeft_eq_zero_iff (show 2 < 16 by decide) status

-- `IRQ_REPLAY` is bit 3.
theorem getLsbD_enterStatus (status : BitVec 32) :
    (status &&& ~~~irqReplay ||| irqPending).getLsbD 0 = status.getLsbD 0 ∧
      (status &&& ~~~irqReplay ||| irqPending).getLsbD 1 = status.getLsbD 1 ∧
      (status &&& ~~~irqReplay ||| irqPending).getLsbD 2 = true := by
  simp [irqReplay, irqPending]

/-- The line is free: its actions are to be called. -/
theorem enterIRQ_free (hk : k < 16) (hwired : (s.irqDescTable k).handler = .i8259AIrqType)
    (hdisabled : (s.irqDescTable k).status.getLsbD 1 = false)
    (hfree : (s.irqDescTable k).status.getLsbD 0 = false) :
    (enterIRQ k s).1 = (s.irqDescTable k).action ∧ Changes k s (enterIRQ k s).2 ∧
      ((enterIRQ k s).2.irqDescTable k).status.getLsbD 0 = true ∧
      ((enterIRQ k s).2.irqDescTable k).status.getLsbD 1 = false ∧
      ((enterIRQ k s).2.irqDescTable k).status.getLsbD 2 = false ∧
      (enterIRQ k s).2.cachedIrqMask.getLsbD k = true := by
  have hack := ack_sets .cc hk hwired
  have henter := getLsbD_enterStatus (s.irqDescTable k).status
  have hbranch : ((s.irqDescTable k).status &&& ~~~irqReplay ||| irqPending) &&&
      (irqDisabled ||| irqInprogress) = 0#32 := by
    rw [and_busy_eq_zero_iff, henter.1, henter.2.1]
    exact ⟨hdisabled, hfree⟩
  have heq : enterIRQ k s = ((s.irqDescTable k).action, (s.ack .cc k).setStatus k
      (((s.irqDescTable k).status &&& ~~~irqReplay ||| irqPending) &&& ~~~irqPending |||
        irqInprogress)) := by
    unfold enterIRQ
    dsimp only
    rw [hack.table, if_pos hbranch]
  rw [heq]
  refine ⟨rfl, hack.changes.trans (changes_setStatus _), ?_, ?_, ?_, hack.bit⟩
  · simp [irqReplay, irqPending, irqInprogress]
  · simpa [irqReplay, irqPending, irqInprogress] using hdisabled
  · simp [irqReplay, irqPending, irqInprogress]

/-- The line is disabled or being handled: the interrupt is only noted. -/
theorem enterIRQ_noted (hk : k < 16) (hwired : (s.irqDescTable k).handler = .i8259AIrqType)
    (hnoted : (s.irqDescTable k).status.getLsbD 1 = true ∨
      (s.irqDescTable k).status.getLsbD 0 = true) :
    (enterIRQ k s).1 = [] ∧ Changes k s (enterIRQ k s).2 ∧
      ((enterIRQ k s).2.irqDescTable k).status.getLsbD 0 =
        (s.irqDescTable k).status.getLsbD 0 ∧
      ((enterIRQ k s).2.irqDescTable k).status.getLsbD 1 =
        (s.irqDescTable k).status.getLsbD 1 ∧
      ((enterIRQ k s).2.irqDescTable k).status.getLsbD 2 = true ∧
      (enterIRQ k s).2.cachedIrqMask.getLsbD k = true := by
  have hack := ack_sets .cc hk hwired
  have henter := getLsbD_enterStatus (s.irqDescTable k).status
  have hbranch : ¬ ((s.irqDescTable k).status &&& ~~~irqReplay ||| irqPending) &&&
      (irqDisabled ||| irqInprogress) = 0#32 := by
    rw [and_busy_eq_zero_iff, henter.1, henter.2.1]
    rcases hnoted with h | h
    · simp [h]
    · simp [h]
  have heq : enterIRQ k s = ([], (s.ack .cc k).setStatus k
      ((s.irqDescTable k).status &&& ~~~irqReplay ||| irqPending)) := by
    unfold enterIRQ
    dsimp only
    rw [hack.table, if_neg hbranch]
  rw [heq]
  refine ⟨rfl, hack.changes.trans (changes_setStatus _), ?_, ?_, ?_, hack.bit⟩
  · rw [status_setStatus, henter.1]
  · rw [status_setStatus, henter.2.1]
  · rw [status_setStatus, henter.2.2]

theorem changes_enterIRQ (hk : k < 16) (hwired : (s.irqDescTable k).handler = .i8259AIrqType) :
    Changes k s (enterIRQ k s).2 := by
  have hack := ack_sets .cc hk hwired
  unfold enterIRQ
  dsimp only
  split_ifs
  · exact hack.changes.trans (changes_setStatus _)
  · exact hack.changes.trans (changes_setStatus _)

theorem finish_noted (hnoted : (s.irqDescTable k).status.getLsbD 1 = true ∨
    (s.irqDescTable k).status.getLsbD 0 = true) : s.finish k = s := by
  have hbranch : ¬ (s.irqDescTable k).status &&& (irqDisabled ||| irqInprogress) = 0#32 := by
    rw [and_busy_eq_zero_iff]
    rcases hnoted with h | h
    · simp [h]
    · simp [h]
  unfold finish
  cases (s.irqDescTable k).handler with
  | i8259AIrqType =>
    show s.end8259AIrq k = s
    rw [end8259AIrq, if_neg hbranch]
  | noIrqType => rfl

theorem finish_sets (hk : k < 16) (hwired : (s.irqDescTable k).handler = .i8259AIrqType)
    (hdisabled : (s.irqDescTable k).status.getLsbD 1 = false)
    (hfree : (s.irqDescTable k).status.getLsbD 0 = false) :
    SetsMask k false s (s.finish k) := by
  rw [finish, hwired]
  exact end8259AIrq_sets hk ((and_busy_eq_zero_iff _).mpr ⟨hdisabled, hfree⟩)

theorem changes_finish (hk : k < 16) : Changes k s (s.finish k) := by
  unfold finish
  cases (s.irqDescTable k).handler with
  | i8259AIrqType =>
    show Changes k s (s.end8259AIrq k)
    unfold end8259AIrq
    split_ifs
    · exact (enable8259AIrq_sets hk).changes
    · exact .refl k s
  | noIrqType => exact .refl k s

end IrqState

/-! ## One line of the dispatch -/

/-- The line runs its chain in at most one activation, which `IRQ_INPROGRESS` stands for. -/
structure Coupled (chain : List IrqAction) (irq : Fin 16) (d : Dispatch) : Prop where
  synced : d.irqs.Synced
  wired : ∀ k : Fin 16, (d.irqs.irqDescTable k).handler = .i8259AIrqType
  action : (d.irqs.irqDescTable irq).action = chain
  enabled : (d.irqs.irqDescTable irq).status.getLsbD 1 = false
  frames : d.frames irq = [] ∧ (d.irqs.irqDescTable irq).status.getLsbD 0 = false ∨
    ∃ a, d.frames irq = [a] ∧ a.action = chain ∧
      (d.irqs.irqDescTable irq).status.getLsbD 0 = true

section

variable {chain : List IrqAction} {irq k : Fin 16} {d t : Dispatch}

theorem frames_cons_self (a : Activation) (s : IrqState) (stack : List Activation)
    (trace : List (Fin 16 × LineEvent IrqAction)) :
    Dispatch.frames a.irq ⟨s, a :: stack, trace⟩ =
      a :: Dispatch.frames a.irq ⟨s, stack, trace⟩ := by
  simp [Dispatch.frames]

theorem frames_cons_ne {a : Activation} (h : a.irq ≠ irq) (s : IrqState)
    (stack : List Activation) (trace : List (Fin 16 × LineEvent IrqAction)) :
    Dispatch.frames irq ⟨s, a :: stack, trace⟩ = Dispatch.frames irq ⟨s, stack, trace⟩ := by
  simp [Dispatch.frames, h]

theorem history_concat_self (s : IrqState) (stack : List Activation)
    (trace : List (Fin 16 × LineEvent IrqAction)) (e : LineEvent IrqAction) :
    Dispatch.history irq ⟨s, stack, trace ++ [(irq, e)]⟩ =
      Dispatch.history irq ⟨s, stack, trace⟩ ++ [e] := by
  simp [Dispatch.history, lineEvents]

theorem history_concat_ne (h : k ≠ irq) (s : IrqState) (stack : List Activation)
    (trace : List (Fin 16 × LineEvent IrqAction)) (e : LineEvent IrqAction) :
    Dispatch.history irq ⟨s, stack, trace ++ [(k, e)]⟩ =
      Dispatch.history irq ⟨s, stack, trace⟩ := by
  simp [Dispatch.history, lineEvents, h]

/-- A step on another line. -/
theorem Coupled.other (hd : Coupled chain irq d) (hk : k ≠ irq)
    (hchange : IrqState.Changes k d.irqs t.irqs) (hframes : t.frames irq = d.frames irq)
    (hhistory : t.history irq = d.history irq) :
    Coupled chain irq t ∧ t.line irq = d.line irq := by
  have hne : irq.val ≠ k.val := fun h ↦ hk (Fin.ext h.symm)
  have htable := hchange.table irq hne
  constructor
  · constructor
    · exact hchange.synced hd.synced
    · exact hchange.wired hd.wired
    · rw [htable, hd.action]
    · rw [htable, hd.enabled]
    · rw [htable, hframes]
      exact hd.frames
  · rw [Dispatch.line, Dispatch.line, htable, hframes, hhistory, hchange.masks irq hne]

-- What a step on the line itself has to show, apart from the bits and the frames.
theorem Coupled.same (hd : Coupled chain irq d) (hchange : IrqState.Changes irq d.irqs t.irqs)
    (henabled : (t.irqs.irqDescTable irq).status.getLsbD 1 = false)
    (hframes : t.frames irq = [] ∧ (t.irqs.irqDescTable irq).status.getLsbD 0 = false ∨
      ∃ a, t.frames irq = [a] ∧ a.action = chain ∧
        (t.irqs.irqDescTable irq).status.getLsbD 0 = true) : Coupled chain irq t := by
  constructor
  · exact hchange.synced hd.synced
  · exact hchange.wired hd.wired
  · rw [hchange.action, hd.action]
  · exact henabled
  · exact hframes

theorem line_eq {pending masked : Bool} {current : Option (List IrqAction)}
    {history : List (LineEvent IrqAction)}
    (hpending : (d.irqs.irqDescTable irq).status.getLsbD 2 = pending)
    (hcurrent : (d.frames irq).head?.map Activation.rest = current)
    (hmasked : d.irqs.cachedIrqMask.getLsbD irq = masked) (hhistory : d.history irq = history) :
    d.line irq = ⟨pending, current, masked, history⟩ := by
  rw [Dispatch.line, hpending, hcurrent, hmasked, hhistory]

theorem Coupled.deliver (hd : Coupled chain irq d) (inService : Bool) :
    Coupled chain irq { d with irqs := if inService then d.irqs.deliver k else d.irqs } ∧
      Dispatch.line irq { d with irqs := if inService then d.irqs.deliver k else d.irqs } =
        d.line irq := by
  cases inService with
  | false => exact ⟨hd, rfl⟩
  | true =>
    have htable : (d.irqs.deliver k.val).irqDescTable = d.irqs.irqDescTable :=
      IrqState.irqDescTable_deliver
    constructor
    · constructor
      · exact hd.synced.deliver
      · rw [if_pos rfl, htable]
        exact hd.wired
      · rw [if_pos rfl, htable]
        exact hd.action
      · rw [if_pos rfl, htable]
        exact hd.enabled
      · rw [if_pos rfl, htable]
        exact hd.frames
    · simp only [Dispatch.line, if_pos, htable, IrqState.cachedIrqMask_deliver]
      rfl

-- With an action, the interrupt puts an activation on the stack.
theorem arrive_of_action {action : List IrqAction} (hfst : (enterIRQ k d.irqs).1 = action)
    (haction : action ≠ []) :
    d.arrive k = ⟨(enterIRQ k d.irqs).2, handleIRQEvent k action :: d.stack,
      d.trace ++ [(k, LineEvent.arrive)] ++ [(k, LineEvent.enter)]⟩ := by
  unfold Dispatch.arrive
  dsimp only
  rw [hfst, if_neg haction]

-- Without one, `end` finds the line disabled or in progress.
theorem arrive_of_nil (hfst : (enterIRQ k d.irqs).1 = [])
    (hnoted : ((enterIRQ k d.irqs).2.irqDescTable k).status.getLsbD 1 = true ∨
      ((enterIRQ k d.irqs).2.irqDescTable k).status.getLsbD 0 = true) :
    d.arrive k = { d with irqs := (enterIRQ k d.irqs).2
                          trace := d.trace ++ [(k, LineEvent.arrive)] } := by
  unfold Dispatch.arrive
  dsimp only
  rw [hfst, if_pos rfl, IrqState.finish_noted hnoted]

/-- An interrupt on a free line starts the chain. -/
theorem Coupled.arrive_free (hchain : chain ≠ []) (hd : Coupled chain irq d)
    (hframes : d.frames irq = []) (hfree : (d.irqs.irqDescTable irq).status.getLsbD 0 = false) :
    Coupled chain irq (d.arrive irq) ∧ LineStep chain (d.line irq) ((d.arrive irq).line irq) := by
  obtain ⟨hfst, hchange, hprogress, henabled, hpending, hmasked⟩ :=
    IrqState.enterIRQ_free irq.isLt (hd.wired irq) hd.enabled hfree
  rw [arrive_of_action (hfst.trans hd.action) hchain]
  have hnew := (frames_cons_self (handleIRQEvent irq chain) (enterIRQ irq d.irqs).2 d.stack
    (d.trace ++ [(irq, LineEvent.arrive)] ++ [(irq, LineEvent.enter)])).trans (congrArg _ hframes)
  constructor
  · exact hd.same hchange henabled (Or.inr ⟨_, hnew, rfl, hprogress⟩)
  · have hold : d.line irq = ⟨_, none, _, d.history irq⟩ :=
      line_eq rfl (by rw [hframes]; rfl) rfl rfl
    have hline : Dispatch.line irq ⟨(enterIRQ irq d.irqs).2, handleIRQEvent irq chain :: d.stack,
        d.trace ++ [(irq, LineEvent.arrive)] ++ [(irq, LineEvent.enter)]⟩ =
        ⟨false, some chain, true, d.history irq ++ [LineEvent.arrive] ++ [LineEvent.enter]⟩ := by
      apply line_eq
      · exact hpending
      · exact congrArg (fun l : List Activation ↦ l.head?.map Activation.rest) hnew
      · exact hmasked
      · rw [history_concat_self, history_concat_self]
        rfl
    rw [hold, hline]
    exact .start

/-- An interrupt during a run of the chain is noted. -/
theorem Coupled.arrive_busy {a : Activation} (hd : Coupled chain irq d)
    (hframes : d.frames irq = [a]) (haction : a.action = chain)
    (hbusy : (d.irqs.irqDescTable irq).status.getLsbD 0 = true) :
    Coupled chain irq (d.arrive irq) ∧ LineStep chain (d.line irq) ((d.arrive irq).line irq) := by
  obtain ⟨hfst, hchange, hprogress, henabled, hpending, hmasked⟩ :=
    IrqState.enterIRQ_noted irq.isLt (hd.wired irq) (Or.inr hbusy)
  rw [hbusy] at hprogress
  rw [arrive_of_nil hfst (Or.inr hprogress)]
  constructor
  · exact hd.same hchange (henabled.trans hd.enabled) (Or.inr ⟨a, hframes, haction, hprogress⟩)
  · have hold : d.line irq = ⟨_, some a.rest, _, d.history irq⟩ :=
      line_eq rfl (by rw [hframes]; rfl) rfl rfl
    have hline : Dispatch.line irq { d with irqs := (enterIRQ irq d.irqs).2
                                            trace := d.trace ++ [(irq, LineEvent.arrive)] } =
        ⟨true, some a.rest, true, d.history irq ++ [LineEvent.arrive]⟩ := by
      apply line_eq
      · exact hpending
      · exact congrArg (fun l : List Activation ↦ l.head?.map Activation.rest) hframes
      · exact hmasked
      · exact history_concat_self _ _ _ _
    rw [hold, hline]
    exact .note

theorem Coupled.arrive_self (hchain : chain ≠ []) (hd : Coupled chain irq d) :
    Coupled chain irq (d.arrive irq) ∧ LineStep chain (d.line irq) ((d.arrive irq).line irq) := by
  rcases hd.frames with ⟨hframes, hfree⟩ | ⟨a, hframes, haction, hbusy⟩
  · exact hd.arrive_free hchain hframes hfree
  · exact hd.arrive_busy hframes haction hbusy

theorem Coupled.arrive_other (hd : Coupled chain irq d) (hk : k ≠ irq) :
    Coupled chain irq (d.arrive k) ∧ (d.arrive k).line irq = d.line irq := by
  have henter := IrqState.changes_enterIRQ k.isLt (hd.wired k)
  unfold Dispatch.arrive
  dsimp only
  split_ifs
  · exact hd.other hk (henter.trans (IrqState.changes_finish k.isLt)) rfl
      (history_concat_ne hk _ _ _ _)
  · refine hd.other hk henter (frames_cons_ne hk _ _ _) ?_
    rw [history_concat_ne hk, history_concat_ne hk]
    rfl

-- The activation of the line is the only one, and runs its chain.
theorem Coupled.innermost {s : IrqState} {action rest : List IrqAction} {enabled : Bool}
    {stack : List Activation} {trace : List (Fin 16 × LineEvent IrqAction)}
    (hd : Coupled chain irq ⟨s, ⟨irq, action, rest, enabled⟩ :: stack, trace⟩) :
    Dispatch.frames irq ⟨s, stack, trace⟩ = [] ∧ action = chain ∧
      (s.irqDescTable irq).status.getLsbD 0 = true := by
  have hframes := hd.frames
  rw [frames_cons_self ⟨irq, action, rest, enabled⟩] at hframes
  rcases hframes with ⟨hnil, -⟩ | ⟨a, hsingle, haction, hbusy⟩
  · exact absurd hnil (List.cons_ne_nil _ _)
  · obtain ⟨rfl, hnone⟩ := List.cons.inj hsingle
    exact ⟨hnone, haction, hbusy⟩

theorem Coupled.call {action rest : List IrqAction} {a : IrqAction} {enabled : Bool}
    {stack : List Activation} (hd : Coupled chain irq d)
    (hstack : d.stack = ⟨k, action, a :: rest, enabled⟩ :: stack)
    (ht : t = { d with stack := ⟨k, action, rest, enabled⟩ :: stack
                       trace := d.trace ++ [(k, LineEvent.call a)] }) :
    Coupled chain irq t ∧ (t.line irq = d.line irq ∨ LineStep chain (d.line irq) (t.line irq)) := by
  obtain ⟨s, _, trace⟩ := d
  obtain rfl := hstack
  rw [ht]
  by_cases hk : k = irq
  · subst hk
    obtain ⟨hnone, haction, hbusy⟩ := hd.innermost
    have hnew := (frames_cons_self ⟨k, action, rest, enabled⟩ s stack
      (trace ++ [(k, LineEvent.call a)])).trans (congrArg _ hnone)
    constructor
    · exact hd.same (.refl _ _) hd.enabled (Or.inr ⟨_, hnew, haction, hbusy⟩)
    · right
      have hold : Dispatch.line k ⟨s, ⟨k, action, a :: rest, enabled⟩ :: stack, trace⟩ =
          ⟨_, some (a :: rest), _, Dispatch.history k ⟨s, stack, trace⟩⟩ :=
        line_eq rfl (by rw [frames_cons_self ⟨k, action, a :: rest, enabled⟩]; rfl) rfl rfl
      have hline : Dispatch.line k
          ⟨s, ⟨k, action, rest, enabled⟩ :: stack, trace ++ [(k, LineEvent.call a)]⟩ =
          ⟨_, some rest, _, Dispatch.history k ⟨s, stack, trace⟩ ++ [LineEvent.call a]⟩ :=
        line_eq rfl (by rw [hnew]; rfl) rfl (history_concat_self _ _ _ _)
      rw [hold, hline]
      exact .call
  · have hframes : Dispatch.frames irq
        ⟨s, ⟨k, action, rest, enabled⟩ :: stack, trace ++ [(k, LineEvent.call a)]⟩ =
        Dispatch.frames irq ⟨s, ⟨k, action, a :: rest, enabled⟩ :: stack, trace⟩ := by
      rw [frames_cons_ne (a := ⟨k, action, rest, enabled⟩) hk,
        frames_cons_ne (a := ⟨k, action, a :: rest, enabled⟩) hk]
      rfl
    have hother := hd.other
      (t := ⟨s, ⟨k, action, rest, enabled⟩ :: stack, trace ++ [(k, LineEvent.call a)]⟩) hk
      (.refl _ _) hframes (history_concat_ne hk _ _ _ _)
    exact ⟨hother.1, Or.inl hother.2⟩

-- Clearing `IRQ_PENDING`, bit 2, or `IRQ_INPROGRESS`, bit 0.
theorem getLsbD_and_not_pending (status : BitVec 32) :
    (status &&& ~~~irqPending).getLsbD 0 = status.getLsbD 0 ∧
      (status &&& ~~~irqPending).getLsbD 1 = status.getLsbD 1 ∧
      (status &&& ~~~irqPending).getLsbD 2 = false := by
  simp [irqPending]

theorem getLsbD_and_not_inprogress (status : BitVec 32) :
    (status &&& ~~~irqInprogress).getLsbD 0 = false ∧
      (status &&& ~~~irqInprogress).getLsbD 1 = status.getLsbD 1 ∧
      (status &&& ~~~irqInprogress).getLsbD 2 = status.getLsbD 2 := by
  simp [irqInprogress]

/-- What arrived during the run is answered by one more. -/
theorem Coupled.leave_again {s : IrqState} {enabled : Bool} {stack : List Activation}
    {trace : List (Fin 16 × LineEvent IrqAction)}
    (hd : Coupled chain irq ⟨s, ⟨irq, chain, [], enabled⟩ :: stack, trace⟩)
    (hpending : (s.irqDescTable irq).status.getLsbD 2 = true) :
    Coupled chain irq
        (Dispatch.leave irq chain stack ⟨s, ⟨irq, chain, [], enabled⟩ :: stack, trace⟩) ∧
      Dispatch.line irq
          (Dispatch.leave irq chain stack ⟨s, ⟨irq, chain, [], enabled⟩ :: stack, trace⟩) =
        ⟨false, some chain, s.cachedIrqMask.getLsbD irq,
          Dispatch.history irq ⟨s, stack, trace⟩ ++ [LineEvent.leave] ++ [LineEvent.enter]⟩ := by
  obtain ⟨hnone, -, hbusy⟩ := hd.innermost
  obtain ⟨hprogress, henabled, hclear⟩ := getLsbD_and_not_pending (s.irqDescTable irq).status
  unfold Dispatch.leave
  dsimp only
  rw [if_pos (by rw [ne_eq, IrqState.and_pending_eq_zero_iff, hpending]; decide)]
  have hnew := (frames_cons_self (handleIRQEvent irq chain)
    (s.setStatus irq ((s.irqDescTable irq).status &&& ~~~irqPending)) stack
    (trace ++ [(irq, LineEvent.leave)] ++ [(irq, LineEvent.enter)])).trans (congrArg _ hnone)
  constructor
  · apply hd.same (IrqState.changes_setStatus _)
    · rw [IrqState.status_setStatus, henabled]
      exact hd.enabled
    · refine Or.inr ⟨_, hnew, rfl, ?_⟩
      rw [IrqState.status_setStatus, hprogress, hbusy]
  · apply line_eq
    · rw [IrqState.status_setStatus, hclear]
    · exact congrArg (fun l : List Activation ↦ l.head?.map Activation.rest) hnew
    · rfl
    · rw [history_concat_self, history_concat_self]
      rfl

/-- Otherwise the line is free again, and unmasked. -/
theorem Coupled.leave_finish {s : IrqState} {enabled : Bool} {stack : List Activation}
    {trace : List (Fin 16 × LineEvent IrqAction)}
    (hd : Coupled chain irq ⟨s, ⟨irq, chain, [], enabled⟩ :: stack, trace⟩)
    (hpending : (s.irqDescTable irq).status.getLsbD 2 = false) :
    Coupled chain irq
        (Dispatch.leave irq chain stack ⟨s, ⟨irq, chain, [], enabled⟩ :: stack, trace⟩) ∧
      Dispatch.line irq
          (Dispatch.leave irq chain stack ⟨s, ⟨irq, chain, [], enabled⟩ :: stack, trace⟩) =
        ⟨false, none, false, Dispatch.history irq ⟨s, stack, trace⟩ ++ [LineEvent.leave]⟩ := by
  obtain ⟨hnone, -, -⟩ := hd.innermost
  obtain ⟨hprogress, henabled, hkeep⟩ := getLsbD_and_not_inprogress (s.irqDescTable irq).status
  unfold Dispatch.leave
  dsimp only
  rw [if_neg (not_not.mpr ((IrqState.and_pending_eq_zero_iff _).mpr hpending))]
  have hset := IrqState.changes_setStatus (k := irq) (s := s)
    ((s.irqDescTable irq).status &&& ~~~irqInprogress)
  have hfinish := IrqState.finish_sets
    (s := s.setStatus irq ((s.irqDescTable irq).status &&& ~~~irqInprogress)) irq.isLt
    (hset.handler.trans (hd.wired irq))
    (by rw [IrqState.status_setStatus, henabled]; exact hd.enabled)
    (by rw [IrqState.status_setStatus, hprogress])
  constructor
  · apply hd.same (hset.trans hfinish.changes)
    · rw [hfinish.table, IrqState.status_setStatus, henabled]
      exact hd.enabled
    · refine Or.inl ⟨hnone, ?_⟩
      rw [hfinish.table, IrqState.status_setStatus, hprogress]
  · apply line_eq
    · rw [hfinish.table, IrqState.status_setStatus, hkeep, hpending]
    · exact congrArg (fun l : List Activation ↦ l.head?.map Activation.rest) hnone
    · exact hfinish.bit
    · exact history_concat_self _ _ _ _

theorem Coupled.leave_self {action : List IrqAction} {enabled : Bool} {stack : List Activation}
    (hd : Coupled chain irq d) (hstack : d.stack = ⟨irq, action, [], enabled⟩ :: stack) :
    Coupled chain irq (d.leave irq action stack) ∧
      LineStep chain (d.line irq) ((d.leave irq action stack).line irq) := by
  obtain ⟨s, _, trace⟩ := d
  obtain rfl := hstack
  obtain ⟨-, rfl, -⟩ := hd.innermost
  have hold : Dispatch.line irq ⟨s, ⟨irq, action, [], enabled⟩ :: stack, trace⟩ =
      ⟨(s.irqDescTable irq).status.getLsbD 2, some [], _,
        Dispatch.history irq ⟨s, stack, trace⟩⟩ :=
    line_eq rfl (by rw [frames_cons_self ⟨irq, action, [], enabled⟩]; rfl) rfl rfl
  rw [hold]
  cases hpending : (s.irqDescTable irq).status.getLsbD 2 with
  | true =>
    obtain ⟨hcoupled, hline⟩ := hd.leave_again hpending
    rw [hline]
    exact ⟨hcoupled, .again⟩
  | false =>
    obtain ⟨hcoupled, hline⟩ := hd.leave_finish hpending
    rw [hline]
    exact ⟨hcoupled, .finish⟩

theorem Coupled.leave_other {action : List IrqAction} {enabled : Bool} {stack : List Activation}
    (hd : Coupled chain irq d) (hk : k ≠ irq)
    (hstack : d.stack = ⟨k, action, [], enabled⟩ :: stack) :
    Coupled chain irq (d.leave k action stack) ∧
      (d.leave k action stack).line irq = d.line irq := by
  obtain ⟨s, _, trace⟩ := d
  obtain rfl := hstack
  have hold : Dispatch.frames irq ⟨s, ⟨k, action, [], enabled⟩ :: stack, trace⟩ =
      Dispatch.frames irq ⟨s, stack, trace⟩ :=
    frames_cons_ne hk _ _ _
  unfold Dispatch.leave
  dsimp only
  split_ifs
  · refine hd.other hk (IrqState.changes_setStatus _) ?_ ?_
    · exact (frames_cons_ne hk _ _ _).trans hold.symm
    · rw [history_concat_ne hk, history_concat_ne hk]
      rfl
  · exact hd.other hk ((IrqState.changes_setStatus _).trans (IrqState.changes_finish k.isLt))
      hold.symm (history_concat_ne hk _ _ _ _)

/-- A step of the dispatch is, for each line, a step of that line or none. -/
theorem Coupled.step {op : DispatchOp} (hchain : chain ≠ []) (hd : Coupled chain irq d)
    (h : d.step op = some t) :
    Coupled chain irq t ∧ (t.line irq = d.line irq ∨ LineStep chain (d.line irq) (t.line irq)) := by
  cases op with
  | arrive k inService =>
    have hopen : d.interruptible = true := by
      by_contra hclosed
      rw [Dispatch.step, if_neg hclosed] at h
      contradiction
    rw [Dispatch.step, if_pos hopen] at h
    obtain rfl := Option.some.inj h
    obtain ⟨hdeliver, hline⟩ := hd.deliver (k := k) inService
    rw [← hline]
    by_cases hk : k = irq
    · rw [hk] at hdeliver ⊢
      exact (hdeliver.arrive_self hchain).imp_right Or.inr
    · exact (hdeliver.arrive_other hk).imp_right Or.inl
  | call =>
    rw [Dispatch.step] at h
    split at h
    · rename_i k action a rest enabled stack hstack
      exact hd.call hstack (Option.some.inj h).symm
    · contradiction
  | leave =>
    rw [Dispatch.step] at h
    split at h
    · rename_i k action enabled stack hstack
      obtain rfl := Option.some.inj h
      by_cases hk : k = irq
      · rw [hk] at hstack ⊢
        exact (hd.leave_self hstack).imp_right Or.inr
      · exact (hd.leave_other hk hstack).imp_right Or.inl
    · contradiction

end

end AphroditeOs
