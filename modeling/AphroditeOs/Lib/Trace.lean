import Mathlib

/-!
# Traces

What is said of the events that come after an event of a trace, and how it changes as the trace
grows at its end.
-/

namespace Trace

variable {ε : Type*} {e x : ε} {P Q : List ε → Prop} {trace : List ε}

/-- `P` holds of what follows each `e` of the trace. -/
def After (e : ε) (P : List ε → Prop) (trace : List ε) : Prop :=
  ∀ pre post, trace = pre ++ e :: post → P post

theorem after_nil : After e P [] := by
  intro pre post h
  simp at h

theorem After.of_forall (h : ∀ post, P post) : After e P trace :=
  fun _ post _ ↦ h post

-- The last event of a trace that is cut at `e` is `e` itself or ends what follows `e`.
theorem eq_concat_cases {pre post : List ε} (h : trace ++ [x] = pre ++ e :: post) :
    (x = e ∧ post = []) ∨ ∃ post', post = post' ++ [x] ∧ trace = pre ++ e :: post' := by
  rcases List.eq_nil_or_concat post with rfl | ⟨post', y, rfl⟩
  · exact Or.inl ⟨List.singleton_inj.mp (List.append_inj' h rfl).2, rfl⟩
  · right
    rw [List.concat_eq_append] at h ⊢
    rw [← List.cons_append, ← List.append_assoc] at h
    obtain ⟨htrace, hlast⟩ := List.append_inj' h rfl
    exact ⟨post', by rw [List.singleton_inj.mp hlast], htrace⟩

theorem After.concat (h : After e P trace) (hold : ∀ post, P post → Q (post ++ [x]))
    (hnew : x = e → Q []) : After e Q (trace ++ [x]) := by
  intro pre post htrace
  rcases eq_concat_cases htrace with ⟨hx, rfl⟩ | ⟨post', rfl, hpost⟩
  · exact hnew hx
  · exact hold post' (h pre post' hpost)

theorem After.concat_of_ne (h : After e P trace) (hne : x ≠ e)
    (hold : ∀ post, P post → Q (post ++ [x])) : After e Q (trace ++ [x]) :=
  h.concat hold fun hx ↦ absurd hx hne

/-- Before each `e` there is a `y`. -/
def Guarded (y e : ε) (trace : List ε) : Prop :=
  ∀ pre post, trace = pre ++ e :: post → y ∈ pre

theorem guarded_nil {y : ε} : Guarded y e [] := by
  intro pre post h
  simp at h

theorem Guarded.concat {y : ε} (h : Guarded y e trace) (hx : x = e → y ∈ trace) :
    Guarded y e (trace ++ [x]) := by
  intro pre post htrace
  rcases eq_concat_cases htrace with ⟨rfl, rfl⟩ | ⟨post', rfl, hpost⟩
  · rw [← (List.append_inj' htrace rfl).1]
    exact hx rfl
  · exact h pre post' hpost

end Trace
