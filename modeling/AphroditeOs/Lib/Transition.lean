import Mathlib

/-!
# Transition systems and their invariants

Systems in general, and systems of processes that take turns on one shared value.
-/

namespace Transition

variable {σ : Type*}

structure System (σ : Type*) where
  Init : σ → Prop
  Step : σ → σ → Prop

/-- The states of the runs of a system. -/
inductive Reachable (S : System σ) : σ → Prop where
  | init {s : σ} : S.Init s → Reachable S s
  | step {s t : σ} : Reachable S s → S.Step s t → Reachable S t

structure Invariant (S : System σ) (I : σ → Prop) : Prop where
  init : ∀ s, S.Init s → I s
  step : ∀ s t, I s → S.Step s t → I t

theorem Invariant.of_reachable {S : System σ} {I : σ → Prop} (h : Invariant S I) {s : σ}
    (hs : Reachable S s) : I s := by
  induction hs with
  | init hinit => exact h.init _ hinit
  | step _ hstep ih => exact h.step _ _ ih hstep

/-! ## Simulations -/

/-- Along `f`, a step of `S` is a step of `A` or none at all, as long as `J` holds. -/
structure Simulation {τ : Type*} (S : System σ) (A : System τ) (J : σ → Prop) (f : σ → τ) :
    Prop where
  init : ∀ s, S.Init s → J s ∧ A.Init (f s)
  step : ∀ s t, J s → S.Step s t → J t ∧ (f t = f s ∨ A.Step (f s) (f t))

theorem Simulation.reachable {τ : Type*} {S : System σ} {A : System τ} {J : σ → Prop} {f : σ → τ}
    (h : Simulation S A J f) {s : σ} (hs : Reachable S s) : J s ∧ Reachable A (f s) := by
  induction hs with
  | init hinit =>
    obtain ⟨hJ, hA⟩ := h.init _ hinit
    exact ⟨hJ, .init hA⟩
  | step _ hstep ih =>
    obtain ⟨hJ, hsame | hA⟩ := h.step _ _ ih.1 hstep
    · exact ⟨hJ, hsame ▸ ih.2⟩
    · exact ⟨hJ, .step ih.2 hA⟩

/-! ## Runs of a partial step function -/

section

variable {ε : Type*} {step : σ → ε → Option σ}

theorem exists_of_foldlM_append {pre post : List ε} {s t : σ}
    (h : (pre ++ post).foldlM step s = some t) :
    ∃ u, pre.foldlM step s = some u ∧ post.foldlM step u = some t := by
  rw [List.foldlM_append] at h
  exact Option.bind_eq_some_iff.mp h

theorem exists_of_foldlM_cons {e : ε} {events : List ε} {s t : σ}
    (h : (e :: events).foldlM step s = some t) :
    ∃ u, step s e = some u ∧ events.foldlM step u = some t := by
  rw [List.foldlM_cons] at h
  exact Option.bind_eq_some_iff.mp h

/-- What each event of a run preserves, the run preserves. -/
theorem foldlM_invariant {I : σ → Prop} {events : List ε}
    (hstep : ∀ e ∈ events, ∀ s t, I s → step s e = some t → I t) {s t : σ} (hs : I s)
    (h : events.foldlM step s = some t) : I t := by
  induction events generalizing s with
  | nil =>
    obtain rfl := Option.some.inj h
    exact hs
  | cons e events ih =>
    obtain ⟨u, hu, ht⟩ := exists_of_foldlM_cons h
    exact ih (fun e' he' ↦ hstep e' (List.mem_cons_of_mem e he'))
      (hstep e List.mem_cons_self s u hs hu) ht

/-- A run goes through when each of its events does. -/
theorem exists_foldlM {I : σ → Prop} {events : List ε}
    (hstep : ∀ e ∈ events, ∀ s, I s → ∃ t, step s e = some t ∧ I t) {s : σ} (hs : I s) :
    ∃ t, events.foldlM step s = some t ∧ I t := by
  induction events generalizing s with
  | nil => exact ⟨s, rfl, hs⟩
  | cons e events ih =>
    obtain ⟨u, hu, hI⟩ := hstep e List.mem_cons_self s hs
    obtain ⟨t, ht, hIt⟩ := ih (fun e' he' ↦ hstep e' (List.mem_cons_of_mem e he')) hI
    refine ⟨t, ?_, hIt⟩
    rw [List.foldlM_cons, hu]
    exact ht

/-- `P` holds of each event of a run and of the state that the event comes upon. -/
def AtEvents (step : σ → ε → Option σ) (P : σ → ε → Prop) (s : σ) (events : List ε) : Prop :=
  ∀ pre e post t, events = pre ++ e :: post → pre.foldlM step s = some t → P t e

theorem atEvents_congr {I : σ → Prop} {P Q : σ → ε → Prop} {events : List ε}
    (hstep : ∀ e ∈ events, ∀ s, I s → ∃ t, step s e = some t ∧ I t) {s : σ} (hs : I s)
    (h : ∀ e ∈ events, ∀ t, I t → (P t e ↔ Q t e)) :
    AtEvents step P s events ↔ AtEvents step Q s events := by
  have hbefore : ∀ pre e post t, events = pre ++ e :: post → pre.foldlM step s = some t →
      (P t e ↔ Q t e) := by
    intro pre e post t hsplit ht
    have hmem : ∀ e' ∈ pre, e' ∈ events := fun e' he' ↦ by
      rw [hsplit]
      exact List.mem_append_left _ he'
    obtain ⟨t', ht', hI⟩ := exists_foldlM (fun e' he' ↦ hstep e' (hmem e' he')) hs
    rw [ht] at ht'
    obtain rfl := Option.some.inj ht'
    apply h e _ t hI
    rw [hsplit]
    exact List.mem_append_right _ List.mem_cons_self
  constructor
  · intro hP pre e post t hsplit ht
    exact (hbefore pre e post t hsplit ht).mp (hP pre e post t hsplit ht)
  · intro hQ pre e post t hsplit ht
    exact (hbefore pre e post t hsplit ht).mpr (hQ pre e post t hsplit ht)

end

/-! ## Processes on a shared value -/

section

variable {ι ν κ : Type*}

/-- A shared value and the local state of each process. -/
structure Shared (ι ν κ : Type*) where
  value : ν
  proc : ι → κ

def total [Fintype ι] (f : κ → Nat) (proc : ι → κ) : Nat := ∑ i, f (proc i)

theorem le_total [Fintype ι] (f : κ → Nat) (proc : ι → κ) (i : ι) : f (proc i) ≤ total f proc :=
  Finset.single_le_sum (f := fun j ↦ f (proc j)) (fun _ _ ↦ Nat.zero_le _) (Finset.mem_univ i)

theorem total_le_card [Fintype ι] {f : κ → Nat} {proc : ι → κ} (h : ∀ i, f (proc i) ≤ 1) :
    total f proc ≤ Fintype.card ι := by
  have := Finset.sum_le_card_nsmul Finset.univ (fun i ↦ f (proc i)) 1 fun i _ ↦ h i
  rwa [smul_eq_mul, mul_one, Finset.card_univ] at this

theorem total_eq_zero [Fintype ι] {f : κ → Nat} {proc : ι → κ} (h : ∀ i, f (proc i) = 0) :
    total f proc = 0 :=
  Finset.sum_eq_zero fun i _ ↦ h i

variable [DecidableEq ι]

/-- The interleavings of processes that all run `step` on the shared value and their own state. -/
def interleave (value : ν) (proc : κ) (step : ν → κ → ν → κ → Prop) : System (Shared ι ν κ) where
  Init s := s = ⟨value, fun _ ↦ proc⟩
  Step s t := ∃ i v c, step s.value (s.proc i) v c ∧ t = ⟨v, Function.update s.proc i c⟩

section

variable [Fintype ι]

theorem total_update (f : κ → Nat) (proc : ι → κ) (i : ι) (c : κ) :
    total f (Function.update proc i c) + f (proc i) = total f proc + f c := by
  have hrest : ∑ j ∈ Finset.univ.erase i, f (Function.update proc i c j) =
      ∑ j ∈ Finset.univ.erase i, f (proc j) := by
    apply Finset.sum_congr rfl
    intro j hj
    rw [Function.update_of_ne (Finset.ne_of_mem_erase hj)]
  have hnew := Finset.add_sum_erase Finset.univ (fun j ↦ f (Function.update proc i c j))
    (Finset.mem_univ i)
  have hold := Finset.add_sum_erase Finset.univ (fun j ↦ f (proc j)) (Finset.mem_univ i)
  rw [Function.update_self, hrest] at hnew
  unfold total
  omega

theorem add_le_total (f : κ → Nat) (proc : ι → κ) {i j : ι} (hij : i ≠ j) :
    f (proc i) + f (proc j) ≤ total f proc := by
  rw [← Finset.sum_pair (f := fun k ↦ f (proc k)) hij]
  exact Finset.sum_le_univ_sum_of_nonneg fun _ ↦ Nat.zero_le _

end

end

end Transition
