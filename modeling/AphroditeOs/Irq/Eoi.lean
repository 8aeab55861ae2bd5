import AphroditeOs.Irq.Pic
import AphroditeOs.Lib.Transition

/-!
# End of interrupt (`mask_and_ack_8259A_irq`)

Interrupts of lines 8 to 15 come through the second input of the master.  The command that ends
them there goes to the port of the slave.
-/

namespace AphroditeOs

inductive PicEvent where
  -- delivered, and acknowledged
  | interrupt (irq : Fin 16)
  | enable (irq : Fin 16)
  deriving DecidableEq, Repr

def picEvent (file : IrqFile) (s : IrqState) : PicEvent → Option IrqState
  | .interrupt irq =>
    if s.picMasked irq then none else some ((s.deliver irq).maskAndAck8259AIrq file irq)
  | .enable irq => some (s.enable8259AIrq irq)

def picRun (file : IrqFile) (events : List PicEvent) : Option IrqState :=
  events.foldlM (picEvent file) IrqState.initIsaIrqs

def IrqState.NothingInService (s : IrqState) : Prop := s.master.isr = 0#8 ∧ s.slave.isr = 0#8

instance (s : IrqState) : Decidable s.NothingInService :=
  inferInstanceAs (Decidable (_ ∧ _))

/-- After each `mask_and_ack_8259A_irq` of the run nothing is in service. -/
def EoiComplete (file : IrqFile) (events : List PicEvent) : Prop :=
  ∀ pre irq post s, events = pre ++ .interrupt irq :: post →
    picRun file (pre ++ [.interrupt irq]) = some s → s.NothingInService

namespace IrqState

variable {s t : IrqState} {irq : Nat} {file : IrqFile}

theorem nothingInService_enable :
    (s.enable8259AIrq irq).NothingInService ↔ s.NothingInService := by
  unfold enable8259AIrq writeMask
  split_ifs <;> exact Iff.rfl

/-- The acknowledgement of an interrupt that was just delivered. -/
theorem maskAndAck_deliver (hs : Synced s) (hirq : irq < 16) (h : s.picMasked irq = false) :
    (s.deliver irq).maskAndAck8259AIrq file irq =
      { s.deliver irq with
        cachedIrqMask := s.cachedIrqMask ||| 1#32 <<< irq }.handleRealIrq irq := by
  rw [hs.picMasked_eq hirq] at h
  rw [maskAndAck8259AIrq_of_unmasked file hirq (by rw [cachedIrqMask_deliver, h]),
    cachedIrqMask_deliver]

theorem nothingInService_low (hs : Synced s) (hclear : s.NothingInService) (hlow : irq < 8)
    (h : s.picMasked irq = false) :
    ((s.deliver irq).maskAndAck8259AIrq file irq).NothingInService := by
  rw [maskAndAck_deliver hs (by omega) h, handleRealIrq_low hlow, deliver, if_pos hlow]
  constructor
  · show (s.master.isr ||| 1#8 <<< irq) &&& ~~~(1#8 <<< irq) = 0#8
    rw [hclear.1, BitVec.zero_or]
    exact BitVec.and_not_self _
  · exact hclear.2

-- Only the slave is told that a cascaded interrupt has ended.
theorem master_isr_high (file : IrqFile) (hs : Synced s) (hhigh : 8 ≤ irq) (hirq : irq < 16)
    (h : s.picMasked irq = false) :
    ((s.deliver irq).maskAndAck8259AIrq file irq).master.isr = s.master.isr ||| 4#8 := by
  rw [maskAndAck_deliver hs hirq h, handleRealIrq_high hhigh hirq, deliver,
    if_neg (Nat.not_lt.mpr hhigh)]
  rfl

end IrqState

/-! ## Runs -/

section

variable {file : IrqFile} {s t : IrqState} {events : List PicEvent}

theorem synced_picEvent (e : PicEvent) (hs : s.Synced) (h : picEvent file s e = some t) :
    t.Synced := by
  cases e with
  | interrupt irq =>
    rw [picEvent] at h
    split_ifs at h
    obtain rfl := Option.some.inj h
    exact (IrqState.maskAndAck8259AIrq_sets file irq.isLt).synced hs.deliver
  | enable irq =>
    obtain rfl := Option.some.inj h
    exact (IrqState.enable8259AIrq_sets irq.isLt).synced hs

theorem synced_picRun (h : picRun file events = some s) : s.Synced :=
  Transition.foldlM_invariant (fun e _ _ _ hs h ↦ synced_picEvent e hs h) ⟨rfl, rfl⟩ h

theorem nothingInService_picRun (hlow : ∀ irq, PicEvent.interrupt irq ∈ events → irq.val < 8)
    (h : picRun file events = some s) : s.NothingInService := by
  refine (Transition.foldlM_invariant (I := fun s ↦ s.Synced ∧ s.NothingInService) ?_
    ⟨⟨rfl, rfl⟩, rfl, rfl⟩ h).2
  intro e he s t ⟨hs, hclear⟩ hstep
  refine ⟨synced_picEvent e hs hstep, ?_⟩
  cases e with
  | interrupt irq =>
    rw [picEvent] at hstep
    split_ifs at hstep with hmasked
    obtain rfl := Option.some.inj hstep
    exact IrqState.nothingInService_low hs hclear (hlow irq he) (Bool.eq_false_iff.mpr hmasked)
  | enable irq =>
    obtain rfl := Option.some.inj hstep
    exact IrqState.nothingInService_enable.mpr hclear

theorem not_nothingInService_high {irq : Fin 16} (hhigh : 8 ≤ irq.val) {pre : List PicEvent}
    (h : picRun file (pre ++ [.interrupt irq]) = some s) : ¬ s.NothingInService := by
  obtain ⟨u, hpre, hlast⟩ := Transition.exists_of_foldlM_append h
  obtain ⟨v, hstep, hnil⟩ := Transition.exists_of_foldlM_cons hlast
  obtain rfl := Option.some.inj hnil
  rw [picEvent] at hstep
  split_ifs at hstep with hmasked
  obtain rfl := Option.some.inj hstep
  intro hclear
  have hisr := IrqState.master_isr_high file (synced_picRun hpre) hhigh irq.isLt
    (Bool.eq_false_iff.mpr hmasked)
  have hbit := congrArg (fun x : BitVec 8 ↦ x.getLsbD 2) (hisr.symm.trans hclear.1)
  simp at hbit

/-- The end of interrupt reaches both controllers in exactly the runs without an interrupt of the
slave. -/
theorem eoiComplete_iff (h : picRun file events = some s) :
    EoiComplete file events ↔ ∀ irq, PicEvent.interrupt irq ∈ events → irq.val < 8 := by
  constructor
  · intro hcomplete irq hmem
    by_contra hhigh
    obtain ⟨pre, post, hevents⟩ := List.append_of_mem hmem
    have hcut : (pre ++ [.interrupt irq]) ++ post = events := by
      rw [hevents, List.append_assoc, List.singleton_append]
    obtain ⟨u, hu, -⟩ := Transition.exists_of_foldlM_append (hcut ▸ h)
    exact not_nothingInService_high (by omega) hu (hcomplete pre irq post u hevents hu)
  · intro hlow pre irq post u hevents hu
    refine nothingInService_picRun (fun irq' hmem ↦ hlow irq' ?_) hu
    rw [hevents]
    rcases List.mem_append.mp hmem with hpre | hlast
    · exact List.mem_append_left _ hpre
    · rw [List.mem_singleton.mp hlast]
      exact List.mem_append_right _ List.mem_cons_self

end

/-- A key press and a tick of the clock, on lines that were enabled before. -/
theorem eoiComplete_lowLines :
    EoiComplete .c [.enable 0, .enable 1, .interrupt 1, .interrupt 0, .enable 1] ↔
      ∀ irq, PicEvent.interrupt irq ∈
        [PicEvent.enable 0, .enable 1, .interrupt 1, .interrupt 0, .enable 1] → irq.val < 8 :=
  eoiComplete_iff (s := (picRun .c _).get rfl) (Option.some_get rfl).symm

/-- The first interrupt of line 8 leaves its cascade in service. -/
theorem not_forall_eoiComplete :
    ¬ ∀ file events s, picRun file events = some s → EoiComplete file events := by
  intro hall
  have hlast := hall .c [.enable 2, .enable 8, .interrupt 8] _ (Option.some_get rfl).symm
    [.enable 2, .enable 8] 8 [] _ rfl (Option.some_get rfl).symm
  exact absurd hlast (by decide)

end AphroditeOs
