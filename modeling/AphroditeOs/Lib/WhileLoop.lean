import AphroditeOs.Lib.Transition

/-!
# While loops

A loop that repeats `step` while its condition holds, run with fuel, and its passes as a transition
system.
-/

namespace WhileLoop

variable {σ : Type*} (go : σ → Prop) (step : σ → σ)

/-- The loop from a state on; `none` when the fuel runs out. -/
def run [DecidablePred go] : Nat → σ → Option σ
  | 0, _ => none
  | fuel + 1, s => if go s then run fuel (step s) else some s

/-- The loop makes `n` passes from `s` on and then stops. -/
structure EndsAfter (n : Nat) (s : σ) : Prop where
  goes : ∀ j < n, go (step^[j] s)
  stops : ¬ go (step^[n] s)

/-- The states that the passes of the loop from `s₀` on come upon. -/
def passes (s₀ : σ) : Transition.System σ where
  Init s := s = s₀
  Step s t := go s ∧ t = step s

variable {go step} {n : Nat} {s t : σ}

/-- A loop that comes to a stop stops the first time. -/
theorem exists_endsAfter_le (h : ¬ go (step^[n] s)) : ∃ k ≤ n, EndsAfter go step k s := by
  classical
  have hex : ∃ k, ¬ go (step^[k] s) := ⟨n, h⟩
  exact ⟨Nat.find hex, Nat.find_min' hex h,
    fun j hj ↦ not_not.mp (Nat.find_min hex hj), Nat.find_spec hex⟩

theorem EndsAfter.run_eq [DecidablePred go] (h : EndsAfter go step n s) {fuel : Nat}
    (hfuel : n < fuel) :
    run go step fuel s = some (step^[n] s) := by
  induction fuel generalizing n s with
  | zero => exact absurd hfuel (Nat.not_lt_zero _)
  | succ fuel ih =>
    rw [run]
    cases n with
    | zero => exact if_neg h.stops
    | succ n =>
      have hgo : go s := h.goes 0 (Nat.succ_pos n)
      rw [if_pos hgo]
      have hrest : EndsAfter go step n (step s) :=
        ⟨fun j hj ↦ h.goes (j + 1) (Nat.succ_lt_succ hj), h.stops⟩
      exact ih hrest (Nat.lt_of_succ_lt_succ hfuel)

/-! ## The states passed -/

theorem reachable_iterate (h : ∀ j < n, go (step^[j] s)) :
    Transition.Reachable (passes go step s) (step^[n] s) := by
  induction n with
  | zero => exact .init rfl
  | succ n ih =>
    have hn := ih fun j hj ↦ h j (hj.trans (Nat.lt_succ_self n))
    exact .step hn ⟨h n (Nat.lt_succ_self n), Function.iterate_succ_apply' step n s⟩

theorem exists_iterate_of_reachable (h : Transition.Reachable (passes go step s) t) :
    ∃ n, (∀ j < n, go (step^[j] s)) ∧ t = step^[n] s := by
  have hinv : Transition.Invariant (passes go step s)
      fun t ↦ ∃ n, (∀ j < n, go (step^[j] s)) ∧ t = step^[n] s := by
    constructor
    · intro t ht
      exact ⟨0, fun _ hj ↦ absurd hj (Nat.not_lt_zero _), ht⟩
    · intro t u ⟨n, hgo, ht⟩ ⟨hgot, hu⟩
      refine ⟨n + 1, fun j hj ↦ ?_, ?_⟩
      · rcases Nat.eq_or_lt_of_le (Nat.le_of_lt_succ hj) with heq | hlt
        · rwa [heq, ← ht]
        · exact hgo j hlt
      · rw [hu, ht, Function.iterate_succ_apply']
  exact hinv.of_reachable h

/-- A state from which another pass is made comes before the loop's end. -/
theorem EndsAfter.exists_lt_of_reachable (hends : EndsAfter go step n s)
    (h : Transition.Reachable (passes go step s) t) (hgo : go t) : ∃ j < n, t = step^[j] s := by
  have ⟨j, hj, ht⟩ := exists_iterate_of_reachable h
  rcases Nat.lt_trichotomy j n with hlt | heq | hgt
  · exact ⟨j, hlt, ht⟩
  · rw [ht, heq] at hgo
    exact absurd hgo hends.stops
  · exact absurd (hj n hgt) hends.stops

end WhileLoop
