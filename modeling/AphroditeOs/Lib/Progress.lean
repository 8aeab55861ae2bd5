import AphroditeOs.Lib.Transition

/-!
# What a system can still come to

The states that can be reached from a given one, with descent along a measure, and runs of one
process while the others stand still.
-/

namespace Transition

variable {σ : Type*} {S : System σ} {s t : σ}

/-- The system can go from one state to another. -/
abbrev Steps (S : System σ) : σ → σ → Prop := Relation.ReflTransGen S.Step

theorem Invariant.of_steps {I : σ → Prop} (h : Invariant S I) (hs : I s) (hsteps : Steps S s t) :
    I t := by
  induction hsteps with
  | refl => exact hs
  | tail _ hstep ih => exact h.step _ _ ih hstep

/-- What each step keeps is kept along any number of steps. -/
theorem steps_keep {I : σ → Prop} (hstep : ∀ s t, I s → S.Step s t → I t) (hs : I s)
    (hsteps : Steps S s t) : I t := by
  induction hsteps with
  | refl => exact hs
  | tail _ hlast ih => exact hstep _ _ ih hlast

/-- As long as the measure can be brought down, it can be brought down to zero. -/
theorem exists_steps_of_measure {I : σ → Prop} (μ : σ → Nat)
    (hdown : ∀ s, I s → μ s ≠ 0 → ∃ t, Steps S s t ∧ I t ∧ μ t < μ s) (hs : I s) :
    ∃ t, Steps S s t ∧ I t ∧ μ t = 0 := by
  induction hμ : μ s using Nat.strong_induction_on generalizing s with
  | h m ih =>
    by_cases hzero : μ s = 0
    · exact ⟨s, .refl, hs, hzero⟩
    · obtain ⟨t, hst, ht, hless⟩ := hdown s hs hzero
      obtain ⟨u, htu, hu, hend⟩ := ih (μ t) (hμ ▸ hless) ht rfl
      exact ⟨u, hst.trans htu, hu, hend⟩

/-! ## One process alone -/

section

variable {ι ν κ : Type*} [DecidableEq ι] {value : ν} {proc : κ} {step : ν → κ → ν → κ → Prop}

/-- One process runs, from a value and its own state on. -/
abbrev Solo (step : ν → κ → ν → κ → Prop) : ν × κ → ν × κ → Prop :=
  Relation.ReflTransGen fun a b ↦ step a.1 a.2 b.1 b.2

theorem solo_cons {a : ν × κ} {v : ν} {c : κ} {b : ν × κ} (h : step a.1 a.2 v c)
    (hrest : Solo step (v, c) b) : Solo step a b :=
  .head (b := (v, c)) h hrest

/-- The others stand still. -/
theorem steps_of_solo {s : Shared ι ν κ} {i : ι} {b : ν × κ}
    (h : Solo step (s.value, s.proc i) b) :
    Steps (interleave value proc step) s ⟨b.1, Function.update s.proc i b.2⟩ := by
  induction h with
  | refl =>
    rw [Function.update_eq_self]
  | @tail b c _ hstep ih =>
    refine ih.tail ⟨i, c.1, c.2, ?_, ?_⟩
    · show step b.1 (Function.update s.proc i b.2 i) c.1 c.2
      rw [Function.update_self]
      exact hstep
    · rw [Function.update_idem]

end

end Transition
