import AphroditeOs.Irq.Dispatch

/-!
# Serving an interrupt

`do_IRQ` of `irq.c` acknowledges, which masks the line, and does not call `end`.  `__do_IRQ` of
`irq.cc` serves every line that drivers have set up, however its activations nest.
-/

namespace AphroditeOs

/-! ## `irq.c` -/

/-- The state after `do_IRQ` has been called for some lines. -/
def afterDoIRQs (lines : List (Fin 16)) (s : IrqState) : IrqState :=
  lines.foldl (fun s irq ↦ doIRQ (pushedIrq irq) s) s

section

variable {s : IrqState}

def Wired (s : IrqState) : Prop :=
  s.Synced ∧ ∀ k : Fin 16, (s.irqDescTable k).handler = .i8259AIrqType

theorem wired_withDrivers (status : Nat → BitVec 32) (action : Nat → List IrqAction)
    (mask : BitVec 32) : Wired (IrqState.withDrivers status action mask) :=
  ⟨⟨rfl, rfl⟩, fun k ↦ if_pos k.isLt⟩

theorem doIRQ_sets (hs : Wired s) (irq : Fin 16) :
    IrqState.SetsMask irq true s (doIRQ (pushedIrq irq) s) := by
  rw [doIRQ, irqNo_pushedIrq]
  exact IrqState.ack_sets .c irq.isLt (hs.2 irq)

theorem Wired.doIRQ (hs : Wired s) (irq : Fin 16) : Wired (doIRQ (pushedIrq irq) s) := by
  have hsets := doIRQ_sets hs irq
  refine ⟨hsets.synced hs.1, fun k ↦ ?_⟩
  rw [hsets.table]
  exact hs.2 k

theorem Wired.afterDoIRQs (hs : Wired s) (lines : List (Fin 16)) : Wired (afterDoIRQs lines s) := by
  induction lines generalizing s with
  | nil => exact hs
  | cons irq lines ih => exact ih (hs.doIRQ irq)

end

/-- Whatever the descriptors and the masks are, a line is masked after its `do_IRQ`. -/
theorem masked_doIRQ (status : Nat → BitVec 32) (action : Nat → List IrqAction)
    (mask : BitVec 32) (lines : List (Fin 16)) (irq : Fin 16) :
    let s := doIRQ (pushedIrq irq) (afterDoIRQs lines (.withDrivers status action mask))
    s.cachedIrqMask.getLsbD irq = true ∧ s.picMasked irq = true := by
  have hwired := (wired_withDrivers status action mask).afterDoIRQs lines
  have hsets := doIRQ_sets hwired irq
  exact ⟨hsets.bit, hsets.picMasked hwired.1 irq.isLt⟩

/-- The keyboard, unmasked and enabled, has had its last interrupt after the first. -/
theorem not_forall_unmasked_doIRQ :
    ¬ ∀ (status : Nat → BitVec 32) (action : Nat → List IrqAction) (mask : BitVec 32)
        (lines : List (Fin 16)) (irq : Fin 16),
      let s := afterDoIRQs lines (.withDrivers status action mask)
      (s.irqDescTable irq).status &&& (irqDisabled ||| irqInprogress) = 0#32 →
        s.cachedIrqMask.getLsbD irq = false →
        (doIRQ (pushedIrq irq) s).cachedIrqMask.getLsbD irq = false ∧
          (doIRQ (pushedIrq irq) s).picMasked irq = false := by
  intro hall
  have hkeyboard := hall (fun _ ↦ 0#32) (fun _ ↦ []) 0xFFFD#32 [] 1 rfl rfl
  exact absurd hkeyboard.1 (by decide)

/-! ## `irq.cc` -/

/-- What the dispatch owes to a line. -/
structure ServesLine (chain : List IrqAction) (irq : Fin 16) (d : Dispatch) : Prop where
  not_reentered : ∀ pre mid post,
    d.trace = pre ++ (irq, .enter) :: (mid ++ (irq, .enter) :: post) → (irq, .leave) ∈ mid
  answered : (∀ a ∈ d.stack, a.irq ≠ irq) → ∀ pre post,
    d.trace = pre ++ (irq, .arrive) :: post → ((chainRun chain).map (Prod.mk irq)).Sublist post
  returned : (∀ a ∈ d.stack, a.irq ≠ irq) → (irq, .arrive) ∈ d.trace →
    (d.irqs.irqDescTable irq).status &&& (irqInprogress ||| irqPending) = 0#32 ∧
      d.irqs.cachedIrqMask.getLsbD irq = false ∧ d.irqs.picMasked irq = false

/-! ## All activations return -/

def DispatchOp.quiet : DispatchOp → Bool
  | .arrive _ _ => false
  | _ => true

/-- The steps an activation has left, while no interrupt arrives. -/
def Activation.work (s : IrqState) (a : Activation) : Nat :=
  a.rest.length + 1 +
    if (s.irqDescTable a.irq).status.getLsbD 2 then a.action.length + 1 else 0

def Dispatch.work (d : Dispatch) : Nat := (d.stack.map (Activation.work d.irqs)).sum

section

variable {s : IrqState} {k : Fin 16} {d t : Dispatch}

theorem length_rest_handleIRQEvent (irq : Fin 16) (action : List IrqAction) :
    (handleIRQEvent irq action).rest.length = action.length := rfl

theorem irqDescTable_finish (k : Nat) (s : IrqState) :
    (s.finish k).irqDescTable = s.irqDescTable := by
  unfold IrqState.finish
  cases (s.irqDescTable k).handler with
  | i8259AIrqType =>
    show (s.end8259AIrq k).irqDescTable = _
    unfold IrqState.end8259AIrq
    split_ifs
    · exact IrqState.irqDescTable_writeMask _ _
    · rfl
  | noIrqType => rfl

theorem work_setStatus_le {status : BitVec 32}
    (h : status.getLsbD 2 = true → (s.irqDescTable k).status.getLsbD 2 = true)
    (a : Activation) : a.work (s.setStatus k status) ≤ a.work s := by
  have hpending : ((s.setStatus k status).irqDescTable a.irq).status.getLsbD 2 = true →
      (s.irqDescTable a.irq).status.getLsbD 2 = true := by
    by_cases hk : a.irq.val = k.val
    · rw [hk, IrqState.status_setStatus]
      exact h
    · rw [(IrqState.changes_setStatus status).table _ hk]
      exact id
  unfold Activation.work
  split_ifs with hnew hold
  · exact le_rfl
  · exact absurd (hpending hnew) hold
  · omega
  · exact le_rfl

theorem sum_work_setStatus_le {status : BitVec 32} (stack : List Activation)
    (h : status.getLsbD 2 = true → (s.irqDescTable k).status.getLsbD 2 = true) :
    (stack.map (Activation.work (s.setStatus k status))).sum ≤
      (stack.map (Activation.work s)).sum :=
  List.sum_le_sum fun a _ ↦ work_setStatus_le h a

theorem work_leave_lt {irq : Fin 16} {action : List IrqAction} {enabled : Bool}
    {stack : List Activation} (hstack : d.stack = ⟨irq, action, [], enabled⟩ :: stack) :
    (d.leave irq action stack).work < d.work := by
  obtain ⟨s, _, trace⟩ := d
  obtain rfl := hstack
  have hold : Dispatch.work ⟨s, ⟨irq, action, [], enabled⟩ :: stack, trace⟩ =
      Activation.work s ⟨irq, action, [], enabled⟩ + (stack.map (Activation.work s)).sum := by
    rw [Dispatch.work, List.map_cons, List.sum_cons]
  rw [hold]
  unfold Dispatch.leave
  dsimp only
  split_ifs with hpending
  · -- one more pass, and nothing pending for the next
    have hclear := (getLsbD_and_not_pending (s.irqDescTable irq).status).2.2
    have hrest := sum_work_setStatus_le (s := s) (k := irq) stack
      (fun h ↦ absurd h (by rw [hclear]; decide))
    rw [ne_eq, IrqState.and_pending_eq_zero_iff, Bool.not_eq_false] at hpending
    rw [Dispatch.work, List.map_cons, List.sum_cons]
    unfold Activation.work at hrest ⊢
    rw [length_rest_handleIRQEvent, show (handleIRQEvent irq action).irq = irq from rfl,
      IrqState.status_setStatus, hclear, hpending]
    simp only [Bool.false_eq_true, if_false, if_true, List.length_nil] at hrest ⊢
    omega
  · have hkeep := (getLsbD_and_not_inprogress (s.irqDescTable irq).status).2.2
    have hrest := sum_work_setStatus_le (s := s) (k := irq) stack (fun h ↦ hkeep ▸ h)
    have hsame : (stack.map (Activation.work ((s.setStatus irq
        ((s.irqDescTable irq).status &&& ~~~irqInprogress)).finish irq))) =
        stack.map (Activation.work (s.setStatus irq
          ((s.irqDescTable irq).status &&& ~~~irqInprogress))) := by
      apply List.map_congr_left
      intro a _
      unfold Activation.work
      rw [irqDescTable_finish]
    have hpos : 0 < Activation.work s ⟨irq, action, [], enabled⟩ := by
      unfold Activation.work
      omega
    rw [Dispatch.work, hsame]
    omega

theorem exists_quiet_step (h : d.stack ≠ []) :
    ∃ op t, op.quiet = true ∧ d.step op = some t ∧ t.work < d.work := by
  obtain ⟨s, stack, trace⟩ := d
  cases stack with
  | nil => contradiction
  | cons a stack =>
    obtain ⟨irq, action, rest, enabled⟩ := a
    cases rest with
    | nil => exact ⟨.leave, _, rfl, rfl, work_leave_lt rfl⟩
    | cons a rest =>
      refine ⟨.call, _, rfl, rfl, ?_⟩
      rw [Dispatch.work, Dispatch.work, List.map_cons, List.map_cons, List.sum_cons, List.sum_cons]
      unfold Activation.work
      simp only [List.length_cons]
      omega

/-- When no more interrupts arrive, all activations return. -/
theorem exists_settled (d : Dispatch) :
    ∃ (ops : List DispatchOp) (t : Dispatch), (∀ op ∈ ops, op.quiet = true) ∧
      ops.foldlM Dispatch.step d = some t ∧ t.stack = [] := by
  induction hwork : d.work using Nat.strong_induction_on generalizing d with
  | h n ih =>
    by_cases hempty : d.stack = []
    · exact ⟨[], d, fun _ h ↦ absurd h List.not_mem_nil, rfl, hempty⟩
    · obtain ⟨op, u, hop, hstep, hlt⟩ := exists_quiet_step hempty
      obtain ⟨ops, t, hops, hrun, ht⟩ := ih u.work (hwork ▸ hlt) u rfl
      refine ⟨op :: ops, t, ?_, ?_, ht⟩
      · intro op' hmem
        rcases List.mem_cons.mp hmem with rfl | hmem
        · exact hop
        · exact hops op' hmem
      · rw [List.foldlM_cons, hstep]
        exact hrun

end

/-! ## Every line is served -/

section

variable {chain : List IrqAction} {irq : Fin 16} {d : Dispatch}

theorem frames_eq_nil (h : ∀ a ∈ d.stack, a.irq ≠ irq) : d.frames irq = [] := by
  apply List.filter_eq_nil_iff.mpr
  intro a ha
  simpa using h a ha

theorem lineEvents_append_cons (pre post : List (Fin 16 × LineEvent IrqAction))
    (e : LineEvent IrqAction) : lineEvents irq (pre ++ (irq, e) :: post) =
      lineEvents irq pre ++ e :: lineEvents irq post := by
  simp [lineEvents]

theorem mem_lineEvents {trace : List (Fin 16 × LineEvent IrqAction)}
    {e : LineEvent IrqAction} : e ∈ lineEvents irq trace ↔ (irq, e) ∈ trace := by
  simp [lineEvents]

theorem map_lineEvents_sublist (trace : List (Fin 16 × LineEvent IrqAction)) :
    ((lineEvents irq trace).map (Prod.mk irq)).Sublist trace := by
  have hmap : (lineEvents irq trace).map (Prod.mk irq) = trace.filter fun e ↦ e.1 = irq := by
    rw [lineEvents, List.map_map]
    conv_rhs => rw [← List.map_id (trace.filter fun e ↦ e.1 = irq)]
    apply List.map_congr_left
    intro e he
    have hfst : e.1 = irq := by simpa using (List.mem_filter.mp he).2
    rw [Function.comp_apply, ← hfst]
    rfl
  rw [hmap]
  exact List.filter_sublist

theorem Coupled.serves (hd : Coupled chain irq d) (hline : LineInv chain (d.line irq)) :
    ServesLine chain irq d := by
  have hidle : (∀ a ∈ d.stack, a.irq ≠ irq) → (d.line irq).current = none := by
    intro h
    rw [Dispatch.line, frames_eq_nil h]
    rfl
  constructor
  · intro pre mid post htrace
    have hhistory : (d.line irq).history = lineEvents irq pre ++
        .enter :: (lineEvents irq mid ++ .enter :: lineEvents irq post) := by
      rw [← lineEvents_append_cons, ← lineEvents_append_cons, ← htrace]
      rfl
    exact mem_lineEvents.mp ((hline.entries _ _ hhistory).1 _ _ rfl)
  · intro hstack pre post htrace
    have hhistory : (d.line irq).history =
        lineEvents irq pre ++ .arrive :: lineEvents irq post := by
      rw [← lineEvents_append_cons, ← htrace]
      rfl
    have hcurrent := hidle hstack
    cases hline.arrivals _ _ hhistory with
    | run hrun => exact (hrun.map _).trans (map_lineEvents_sublist post)
    | pending _ hsome =>
      rw [hcurrent] at hsome
      contradiction
    | running _ hsome _ _ =>
      rw [hcurrent] at hsome
      contradiction
  · intro hstack harrive
    obtain ⟨hpending, hmasked⟩ := hline.quiet (hidle hstack) (mem_lineEvents.mpr harrive)
    have hfree : (d.irqs.irqDescTable irq).status.getLsbD 0 = false := by
      rcases hd.frames with ⟨-, hfree⟩ | ⟨a, hframes, -⟩
      · exact hfree
      · rw [frames_eq_nil hstack] at hframes
        contradiction
    refine ⟨?_, hmasked, (hd.synced.picMasked_eq irq.isLt).trans hmasked⟩
    rw [BitVec.and_or_distrib_left, BitVec.or_eq_zero_iff]
    exact ⟨(IrqState.and_shiftLeft_eq_zero_iff (show 0 < 16 by decide) _).mpr hfree,
      (IrqState.and_pending_eq_zero_iff _).mpr hpending⟩

theorem coupled_init {status : Nat → BitVec 32} {action : Nat → List IrqAction}
    (mask : BitVec 32) (hstatus : status irq &&& (irqDisabled ||| irqInprogress) = 0#32) :
    Coupled (action irq) irq ⟨.withDrivers status action mask, [], []⟩ := by
  obtain ⟨hdisabled, hprogress⟩ := (IrqState.and_busy_eq_zero_iff _).mp hstatus
  exact ⟨⟨rfl, rfl⟩, (wired_withDrivers status action mask).2, rfl, hdisabled,
    Or.inl ⟨rfl, hprogress⟩⟩

theorem serves_of_reachable {status : Nat → BitVec 32} {action : Nat → List IrqAction}
    {mask : BitVec 32} (haction : action irq ≠ [])
    (hstatus : status irq &&& (irqDisabled ||| irqInprogress) = 0#32)
    (hd : Transition.Reachable (dispatchSystem status action mask) d) :
    ServesLine (action irq) irq d := by
  have hsim : Transition.Simulation (dispatchSystem status action mask) (lineSystem (action irq))
      (Coupled (action irq) irq) (Dispatch.line irq) := by
    constructor
    · intro s hs
      rw [hs]
      exact ⟨coupled_init mask hstatus, rfl, rfl⟩
    · intro s t hs ⟨op, hop⟩
      exact hs.step haction hop
  obtain ⟨hcoupled, hline⟩ := hsim.reachable hd
  exact hcoupled.serves (lineInv_of_reachable hline)

/-- **The dispatch protocol**: a line with a chain of actions that is not disabled is served,
whatever interrupts come on it and on the other lines; and when they stop coming, all activations
return. -/
theorem servesLine_of_reachable (status : Nat → BitVec 32) (action : Nat → List IrqAction)
    (mask : BitVec 32) (haction : action irq ≠ [])
    (hstatus : status irq &&& (irqDisabled ||| irqInprogress) = 0#32)
    (hd : Transition.Reachable (dispatchSystem status action mask) d) :
    ServesLine (action irq) irq d ∧
      ∃ (ops : List DispatchOp) (t : Dispatch), (∀ op ∈ ops, op.quiet = true) ∧
        ops.foldlM Dispatch.step d = some t ∧ t.stack = [] ∧ ServesLine (action irq) irq t := by
  obtain ⟨ops, t, hops, hrun, ht⟩ := exists_settled d
  have hreach : Transition.Reachable (dispatchSystem status action mask) t :=
    Transition.foldlM_invariant (fun op _ _ _ hs h ↦ .step hs ⟨op, h⟩) hd hrun
  exact ⟨serves_of_reachable haction hstatus hd, ops, t, hops, hrun, ht,
    serves_of_reachable haction hstatus hreach⟩

end

/-- A clock whose handler is interrupted by the keyboard and by another tick. -/
theorem servesLine_nested :
    let tick : IrqAction := ⟨0xC0001000#32, 0#32, 0#32⟩
    ∃ d, d.stack = [] ∧ d.trace.count (0, .call tick) = 2 ∧ ServesLine [tick] 0 d :=
  ⟨_, rfl, by decide, (servesLine_of_reachable (fun _ ↦ 0#32)
    (fun _ ↦ [⟨0xC0001000#32, 0#32, 0#32⟩]) 0#32 (by decide) rfl
    (.step (.step (.step (.step (.step (.step (.step (.step (.step (.init rfl)
      ⟨.arrive 0 true, rfl⟩) ⟨.arrive 1 true, rfl⟩) ⟨.arrive 0 false, rfl⟩) ⟨.call, rfl⟩)
      ⟨.leave, rfl⟩) ⟨.call, rfl⟩) ⟨.leave, rfl⟩) ⟨.call, rfl⟩) ⟨.leave, rfl⟩)).1⟩

end AphroditeOs
