import AphroditeOs.Lib.Trace
import AphroditeOs.Lib.Transition

/-!
# What the dispatch does for one line

A line has a chain of actions to be called at least once after each interrupt, and never twice at
the same time.  Interrupts that arrive during a run of the chain are answered by one more run.
-/

namespace AphroditeOs

variable {α : Type*}

inductive LineEvent (α : Type*) where
  | arrive
  -- the chain is entered, and left
  | enter
  | leave
  | call (a : α)
  deriving DecidableEq, Repr

/-- `current` is what is left to call of the run in progress. -/
structure LineState (α : Type*) where
  pending : Bool
  current : Option (List α)
  masked : Bool
  history : List (LineEvent α)

inductive LineStep (chain : List α) : LineState α → LineState α → Prop where
  | start {pending masked : Bool} {history : List (LineEvent α)} :
      LineStep chain ⟨pending, none, masked, history⟩
        ⟨false, some chain, true, history ++ [.arrive] ++ [.enter]⟩
  | note {pending masked : Bool} {rest : List α} {history : List (LineEvent α)} :
      LineStep chain ⟨pending, some rest, masked, history⟩
        ⟨true, some rest, true, history ++ [.arrive]⟩
  | call {pending masked : Bool} {a : α} {rest : List α} {history : List (LineEvent α)} :
      LineStep chain ⟨pending, some (a :: rest), masked, history⟩
        ⟨pending, some rest, masked, history ++ [.call a]⟩
  | again {masked : Bool} {history : List (LineEvent α)} :
      LineStep chain ⟨true, some [], masked, history⟩
        ⟨false, some chain, masked, history ++ [.leave] ++ [.enter]⟩
  | finish {masked : Bool} {history : List (LineEvent α)} :
      LineStep chain ⟨false, some [], masked, history⟩
        ⟨false, none, false, history ++ [.leave]⟩

def lineSystem (chain : List α) : Transition.System (LineState α) where
  Init l := l.current = none ∧ l.history = []
  Step := LineStep chain

/-- A complete run of the chain. -/
def chainRun (chain : List α) : List (LineEvent α) :=
  .enter :: (chain.map .call ++ [.leave])

/-- What comes after an arrival answers it, or will. -/
inductive Answered (chain : List α) (l : LineState α) (post : List (LineEvent α)) : Prop where
  | run : (chainRun chain).Sublist post → Answered chain l post
  | pending {rest : List α} : l.pending = true → l.current = some rest → Answered chain l post
  | running (done : List α) {rest : List α} : l.current = some rest → done ++ rest = chain →
      (.enter :: done.map .call : List (LineEvent α)).Sublist post → Answered chain l post

structure LineInv (chain : List α) (l : LineState α) : Prop where
  arrivals : Trace.After .arrive (Answered chain l) l.history
  -- a later entry has a `leave` before it, and so has the next one when nothing runs
  entries : Trace.After .enter (fun post ↦ Trace.Guarded .leave .enter post ∧
    (l.current = none → LineEvent.leave ∈ post)) l.history
  quiet : l.current = none → LineEvent.arrive ∈ l.history → l.pending = false ∧ l.masked = false

section

variable {chain : List α} {l l' : LineState α}

theorem lineInv_init (hhistory : l.history = []) : LineInv chain l := by
  constructor
  · rw [hhistory]
    exact Trace.after_nil
  · rw [hhistory]
    exact Trace.after_nil
  · intro _ harrive
    rw [hhistory] at harrive
    exact absurd harrive List.not_mem_nil

-- An event that is not an entry, where nothing ran before or it ends the run.
theorem LineInv.entries_concat {e : LineEvent α} {current : Option (List α)} (hl : LineInv chain l)
    (he : e ≠ .enter) (hnone : current = none → l.current = none ∨ e = .leave) :
    Trace.After .enter (fun post ↦ Trace.Guarded LineEvent.leave .enter post ∧
      (current = none → LineEvent.leave ∈ post)) (l.history ++ [e]) := by
  refine hl.entries.concat_of_ne he ?_
  intro post ⟨hguarded, hleave⟩
  refine ⟨hguarded.concat fun h ↦ absurd h he, fun hcurrent ↦ ?_⟩
  rcases hnone hcurrent with hidle | rfl
  · exact List.mem_append_left _ (hleave hidle)
  · simp

-- An entry, where nothing runs.
theorem entries_enter {history : List (LineEvent α)} (rest : List α)
    (h : Trace.After .enter (fun post ↦ Trace.Guarded LineEvent.leave .enter post ∧
      ((none : Option (List α)) = none → LineEvent.leave ∈ post)) history) :
    Trace.After .enter (fun post ↦ Trace.Guarded LineEvent.leave .enter post ∧
      (some rest = none → LineEvent.leave ∈ post)) (history ++ [.enter]) := by
  refine h.concat ?_ fun _ ↦ ⟨Trace.guarded_nil, by simp⟩
  intro post ⟨hguarded, hleave⟩
  exact ⟨hguarded.concat fun _ ↦ hleave rfl, by simp⟩

-- Where nothing runs and nothing waits, an arrival has been answered.
theorem Answered.run_of_idle {post : List (LineEvent α)} (h : Answered chain l post)
    (hidle : l.current = none) : (chainRun chain).Sublist post := by
  cases h with
  | run hrun => exact hrun
  | pending _ hcurrent =>
    rw [hidle] at hcurrent
    contradiction
  | running _ hcurrent _ _ =>
    rw [hidle] at hcurrent
    contradiction

/-- A call takes the run that answers an arrival one action further. -/
theorem Answered.concat_call {pending masked : Bool} {a : α} {rest : List α}
    {history history' post : List (LineEvent α)}
    (h : Answered chain ⟨pending, some (a :: rest), masked, history⟩ post) :
    Answered chain ⟨pending, some rest, masked, history'⟩ (post ++ [.call a]) := by
  cases h with
  | run hrun => exact .run (hrun.trans (List.sublist_append_left _ _))
  | pending hpending _ => exact .pending hpending rfl
  | running done hcurrent hchain hrun =>
    obtain rfl := Option.some.inj hcurrent
    refine .running (done ++ [a]) rfl (by simpa using hchain) ?_
    rw [List.map_append, ← List.cons_append]
    exact hrun.append (List.Sublist.refl _)

/-- With nothing pending, the run that ends answers what has not been answered before. -/
theorem Answered.concat_leave {masked masked' : Bool} {history history' post : List (LineEvent α)}
    (h : Answered chain ⟨false, some [], masked, history⟩ post) :
    Answered chain ⟨false, none, masked', history'⟩ (post ++ [.leave]) := by
  cases h with
  | run hrun => exact .run (hrun.trans (List.sublist_append_left _ _))
  | pending hpending _ => simp at hpending
  | running done hcurrent hchain hrun =>
    obtain rfl := Option.some.inj hcurrent
    rw [List.append_nil] at hchain
    rw [hchain] at hrun
    exact .run (hrun.append (List.Sublist.refl _))

theorem LineInv.arrivals_step (hl : LineInv chain l) (h : LineStep chain l l') :
    Trace.After .arrive (Answered chain l') l'.history := by
  have harrivals := hl.arrivals
  cases h with
  | @start pending masked history =>
    -- the chain starts right after the new arrival; the older ones had their runs
    have hone : Trace.After .arrive (fun post ↦ post = [] ∨ (chainRun chain).Sublist post)
        (history ++ [.arrive]) := by
      refine harrivals.concat ?_ fun _ ↦ Or.inl rfl
      intro post hpost
      exact Or.inr ((hpost.run_of_idle rfl).trans (List.sublist_append_left _ _))
    refine hone.concat_of_ne (by simp) ?_
    intro post hpost
    rcases hpost with rfl | hrun
    · exact .running [] rfl rfl (List.Sublist.refl _)
    · exact .run (hrun.trans (List.sublist_append_left _ _))
  | @note pending masked rest history =>
    exact Trace.After.of_forall fun _ ↦ .pending rfl rfl
  | @call pending masked a rest history =>
    exact harrivals.concat_of_ne (by simp) fun _ hpost ↦ hpost.concat_call
  | @again masked history =>
    -- the new run comes after every arrival there was
    have hall : Trace.After LineEvent.arrive (fun _ ↦ True) (history ++ [.leave]) :=
      Trace.After.of_forall fun _ ↦ trivial
    refine hall.concat_of_ne (by simp) ?_
    intro post _
    exact .running [] rfl rfl (List.sublist_append_right _ _)
  | @finish masked history =>
    exact harrivals.concat_of_ne (by simp) fun _ hpost ↦ hpost.concat_leave

theorem LineInv.entries_step (hl : LineInv chain l) (h : LineStep chain l l') :
    Trace.After .enter (fun post ↦ Trace.Guarded LineEvent.leave .enter post ∧
      (l'.current = none → LineEvent.leave ∈ post)) l'.history := by
  cases h with
  | start => exact entries_enter chain (hl.entries_concat (by simp) fun _ ↦ Or.inl rfl)
  | note => exact hl.entries_concat (by simp) (by simp)
  | call => exact hl.entries_concat (by simp) (by simp)
  | again => exact entries_enter chain (hl.entries_concat (by simp) fun _ ↦ Or.inr rfl)
  | finish => exact hl.entries_concat (by simp) fun _ ↦ Or.inr rfl

theorem LineInv.step (hl : LineInv chain l) (h : LineStep chain l l') : LineInv chain l' := by
  refine ⟨hl.arrivals_step h, hl.entries_step h, ?_⟩
  intro hcurrent _
  cases h with
  | finish => exact ⟨rfl, rfl⟩
  | start => simp at hcurrent
  | note => simp at hcurrent
  | call => simp at hcurrent
  | again => simp at hcurrent

theorem lineInv_of_reachable (h : Transition.Reachable (lineSystem chain) l) : LineInv chain l := by
  have hinv : Transition.Invariant (lineSystem chain) (LineInv chain) :=
    ⟨fun _ hl ↦ lineInv_init hl.2, fun _ _ hl hstep ↦ hl.step hstep⟩
  exact hinv.of_reachable h

end

end AphroditeOs
