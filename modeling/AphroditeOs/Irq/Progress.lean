import AphroditeOs.Irq.Serve

/-!
# The in-progress mark (`__do_IRQ` of `kernel/irq.cc`)

The mark is set before the action is tested, and `goto out` skips the statement that takes it back.
-/

namespace AphroditeOs

/-- The line is not marked, and unless it is disabled it is unmasked. -/
structure TakenBack (irq : Fin 16) (d : Dispatch) : Prop where
  inprogress : (d.irqs.irqDescTable irq).status &&& irqInprogress = 0#32
  unmasked : (d.irqs.irqDescTable irq).status &&& irqDisabled = 0#32 →
    d.irqs.cachedIrqMask.getLsbD irq = false ∧ d.irqs.picMasked irq = false

/-- Whenever no activation of the line is on the stack and there has been one, the mark is taken
back. -/
def AlwaysTakenBack (status : Nat → BitVec 32) (action : Nat → List IrqAction)
    (mask : BitVec 32) (irq : Fin 16) : Prop :=
  ∀ d, Transition.Reachable (dispatchSystem status action mask) d →
    (∀ a ∈ d.stack, a.irq ≠ irq) → (irq, .arrive) ∈ d.trace → TakenBack irq d

section

variable {irq k : Fin 16} {d t : Dispatch} {status : Nat → BitVec 32}
  {action : Nat → List IrqAction} {mask : BitVec 32}

theorem and_inprogress_eq_zero_iff (x : BitVec 32) :
    x &&& irqInprogress = 0#32 ↔ x.getLsbD 0 = false :=
  IrqState.and_shiftLeft_eq_zero_iff (show 0 < 16 by decide) x

theorem and_disabled_eq_zero_iff (x : BitVec 32) :
    x &&& irqDisabled = 0#32 ↔ x.getLsbD 1 = false :=
  IrqState.and_shiftLeft_eq_zero_iff (show 1 < 16 by decide) x

/-! ## A disabled line -/

/-- The line is disabled and has no activation. -/
structure Dormant (irq : Fin 16) (d : Dispatch) : Prop where
  wired : ∀ k : Fin 16, (d.irqs.irqDescTable k).handler = .i8259AIrqType
  disabled : (d.irqs.irqDescTable irq).status.getLsbD 1 = true
  free : (d.irqs.irqDescTable irq).status.getLsbD 0 = false
  frames : d.frames irq = []

theorem Dormant.other (hd : Dormant irq d) (hk : k ≠ irq)
    (hchange : IrqState.Changes k d.irqs t.irqs) (hframes : t.frames irq = d.frames irq) :
    Dormant irq t := by
  have htable := hchange.table irq fun h ↦ hk (Fin.ext h.symm)
  constructor
  · exact hchange.wired hd.wired
  · rw [htable, hd.disabled]
  · rw [htable, hd.free]
  · rw [hframes, hd.frames]

theorem Dormant.deliver (hd : Dormant irq d) (inService : Bool) :
    Dormant irq { d with irqs := if inService then d.irqs.deliver k else d.irqs } := by
  cases inService with
  | false => exact hd
  | true =>
    have htable : (d.irqs.deliver k.val).irqDescTable = d.irqs.irqDescTable :=
      IrqState.irqDescTable_deliver
    constructor
    · simpa [htable] using hd.wired
    · simpa [htable] using hd.disabled
    · simpa [htable] using hd.free
    · exact hd.frames

theorem Dormant.arrive (hd : Dormant irq d) (k : Fin 16) : Dormant irq (d.arrive k) := by
  by_cases hk : k = irq
  · subst hk
    obtain ⟨hfst, hchange, hprogress, hdisabled, -⟩ :=
      IrqState.enterIRQ_noted k.isLt (hd.wired k) (Or.inl hd.disabled)
    rw [hd.free] at hprogress
    rw [hd.disabled] at hdisabled
    rw [arrive_of_nil hfst (Or.inl hdisabled)]
    constructor
    · exact hchange.wired hd.wired
    · exact hdisabled
    · exact hprogress
    · exact hd.frames
  · have henter := IrqState.changes_enterIRQ k.isLt (hd.wired k)
    unfold Dispatch.arrive
    dsimp only
    split_ifs
    · exact hd.other hk (henter.trans (IrqState.changes_finish k.isLt)) rfl
    · exact hd.other hk henter (frames_cons_ne hk _ _ _)

-- The innermost activation is of another line.
theorem Dormant.ne_of_stack {a : Activation} {stack : List Activation} (hd : Dormant irq d)
    (hstack : d.stack = a :: stack) : a.irq ≠ irq := by
  have hframes := List.filter_eq_nil_iff.mp hd.frames a (by rw [hstack]; exact List.mem_cons_self)
  simpa using hframes

theorem Dormant.leave {action : List IrqAction} {enabled : Bool} {stack : List Activation}
    (hd : Dormant irq d) (hstack : d.stack = ⟨k, action, [], enabled⟩ :: stack) :
    Dormant irq (d.leave k action stack) := by
  have hk : k ≠ irq := hd.ne_of_stack hstack
  have hold : d.frames irq = Dispatch.frames irq ⟨d.irqs, stack, d.trace⟩ := by
    simp [Dispatch.frames, hstack, hk]
  unfold Dispatch.leave
  dsimp only
  split_ifs
  · exact hd.other hk (IrqState.changes_setStatus _) ((frames_cons_ne hk _ _ _).trans hold.symm)
  · exact hd.other hk ((IrqState.changes_setStatus _).trans (IrqState.changes_finish k.isLt))
      hold.symm

theorem Dormant.step {op : DispatchOp} (hd : Dormant irq d) (h : d.step op = some t) :
    Dormant irq t := by
  cases op with
  | arrive k inService =>
    rw [Dispatch.step] at h
    obtain ⟨-, heq⟩ := Option.ite_none_right_eq_some.mp h
    obtain rfl := Option.some.inj heq
    exact (hd.deliver inService).arrive k
  | call =>
    rw [Dispatch.step] at h
    split at h
    · rename_i k action a rest enabled stack hstack
      obtain rfl := Option.some.inj h
      have hk : k ≠ irq := hd.ne_of_stack hstack
      have hframes : Dispatch.frames irq ⟨d.irqs, ⟨k, action, rest, enabled⟩ :: stack,
          d.trace ++ [(k, .call a)]⟩ = d.frames irq := by
        simp [Dispatch.frames, hstack, hk]
      exact hd.other hk (IrqState.Changes.refl k.val d.irqs) hframes
    · contradiction
  | leave =>
    rw [Dispatch.step] at h
    split at h
    · rename_i k action enabled stack hstack
      obtain rfl := Option.some.inj h
      exact hd.leave hstack
    · contradiction

theorem takenBack_of_disabled (hstatus : status irq &&& irqInprogress = 0#32)
    (hdisabled : status irq &&& irqDisabled ≠ 0#32)
    (hd : Transition.Reachable (dispatchSystem status action mask) d) : TakenBack irq d := by
  have hinv : Transition.Invariant (dispatchSystem status action mask) (Dormant irq) := by
    constructor
    · intro s hs
      rw [hs]
      refine ⟨(wired_withDrivers status action mask).2, ?_, ?_, rfl⟩
      · rwa [ne_eq, and_disabled_eq_zero_iff, Bool.not_eq_false] at hdisabled
      · exact (and_inprogress_eq_zero_iff _).mp hstatus
    · intro s t hs ⟨op, hop⟩
      exact hs.step hop
  have hdormant := hinv.of_reachable hd
  constructor
  · exact (and_inprogress_eq_zero_iff _).mpr hdormant.free
  · intro h
    rw [and_disabled_eq_zero_iff, hdormant.disabled] at h
    contradiction

/-! ## An empty chain -/

-- `__do_IRQ` leaves at `out`, with the mark.
theorem not_alwaysTakenBack_of_empty (hstatus : status irq &&& irqInprogress = 0#32)
    (hdisabled : status irq &&& irqDisabled = 0#32) (haction : action irq = []) :
    ¬ AlwaysTakenBack status action mask irq := by
  intro hall
  obtain ⟨hfst, -, hprogress, -⟩ :=
    IrqState.enterIRQ_free (s := .withDrivers status action mask) irq.isLt
      ((wired_withDrivers status action mask).2 irq) ((and_disabled_eq_zero_iff _).mp hdisabled)
      ((and_inprogress_eq_zero_iff _).mp hstatus)
  have heq : Dispatch.arrive irq ⟨.withDrivers status action mask, [], []⟩ =
      ⟨(enterIRQ irq (.withDrivers status action mask)).2, [], [(irq, .arrive)]⟩ := by
    exact arrive_of_nil (d := ⟨.withDrivers status action mask, [], []⟩) (hfst.trans haction)
      (Or.inr hprogress)
  have hreach : Transition.Reachable (dispatchSystem status action mask)
      (Dispatch.arrive irq ⟨.withDrivers status action mask, [], []⟩) :=
    .step (.init rfl) ⟨.arrive irq false, rfl⟩
  have htaken := hall _ hreach (by rw [heq]; simp) (by rw [heq]; simp)
  have hinprogress := htaken.inprogress
  rw [heq, and_inprogress_eq_zero_iff, hprogress] at hinprogress
  contradiction

/-- **The mark is taken back exactly on lines that are disabled or have an action**, whatever the
nesting is. -/
theorem alwaysTakenBack_iff (status : Nat → BitVec 32) (action : Nat → List IrqAction)
    (mask : BitVec 32) (irq : Fin 16) (hstatus : status irq &&& irqInprogress = 0#32) :
    AlwaysTakenBack status action mask irq ↔
      status irq &&& irqDisabled ≠ 0#32 ∨ action irq ≠ [] := by
  by_cases hdisabled : status irq &&& irqDisabled = 0#32
  · by_cases haction : action irq = []
    · apply iff_of_false (not_alwaysTakenBack_of_empty hstatus hdisabled haction)
      simp [hdisabled, haction]
    · refine iff_of_true (fun d hd hstack harrive ↦ ?_) (Or.inr haction)
      have hfree : status irq &&& (irqDisabled ||| irqInprogress) = 0#32 := by
        rw [BitVec.and_or_distrib_left, hdisabled, hstatus, BitVec.or_zero]
      have hserved := (serves_of_reachable haction hfree hd).returned hstack harrive
      rw [BitVec.and_or_distrib_left, BitVec.or_eq_zero_iff] at hserved
      exact ⟨hserved.1.1, fun _ ↦ hserved.2⟩
  · exact iff_of_true (fun d hd _ _ ↦ takenBack_of_disabled hstatus hdisabled hd)
      (Or.inl hdisabled)

end

/-- A line with one action. -/
theorem alwaysTakenBack_tick :
    AlwaysTakenBack (fun _ ↦ 0#32) (fun _ ↦ [⟨0xC0001000#32, 0#32, 0#32⟩]) 0xFFFE#32 0 :=
  (alwaysTakenBack_iff _ _ _ 0 rfl).mpr (Or.inr (by decide))

/-- A line that nothing has been attached to. -/
theorem not_forall_alwaysTakenBack :
    ¬ ∀ (status : Nat → BitVec 32) (action : Nat → List IrqAction) (mask : BitVec 32)
        (irq : Fin 16), status irq &&& irqInprogress = 0#32 →
      AlwaysTakenBack status action mask irq := by
  intro hall
  exact not_alwaysTakenBack_of_empty rfl rfl rfl (hall (fun _ ↦ 0#32) (fun _ ↦ []) 0#32 0 rfl)

end AphroditeOs
