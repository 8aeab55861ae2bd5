import Mathlib

/-!
# Strings with an end mark

Sequences that hold a list from an index on, lists stored into them, and the part up to the first
end mark.
-/

namespace CString

variable {β : Type*}

/-- The sequence holds a list from an index on. -/
def HoldsAt (s : Nat → β) : Nat → List β → Prop
  | _, [] => True
  | p, c :: l => s p = c ∧ HoldsAt s (p + 1) l

/-- The sequence with a list stored from an index on. -/
def storeAt (s : Nat → β) : Nat → List β → Nat → β
  | _, [] => s
  | p, c :: l => storeAt (Function.update s p c) (p + 1) l

/-- The characters from an index up to an end mark; `none` when the fuel runs out. -/
def upTo [DecidableEq β] (z : β) (s : Nat → β) : Nat → Nat → Option (List β)
  | 0, _ => none
  | fuel + 1, p => if s p = z then some [] else (upTo z s fuel (p + 1)).map (s p :: ·)

variable {s : Nat → β} {p q i : Nat} {l m : List β} {c z : β}

theorem holdsAt_append : HoldsAt s p (l ++ m) ↔ HoldsAt s p l ∧ HoldsAt s (p + l.length) m := by
  induction l generalizing p with
  | nil => simp [HoldsAt]
  | cons c l ih =>
    rw [List.cons_append, HoldsAt, HoldsAt, ih, List.length_cons, and_assoc, Nat.add_assoc,
      Nat.add_comm 1]

theorem storeAt_append : storeAt s p (l ++ m) = storeAt (storeAt s p l) (p + l.length) m := by
  induction l generalizing s p with
  | nil => rfl
  | cons c l ih =>
    rw [List.cons_append, storeAt, ih, storeAt, List.length_cons, Nat.add_assoc, Nat.add_comm 1]

theorem HoldsAt.getD (h : HoldsAt s p l) (hi : i < l.length) (d : β) : s (p + i) = l.getD i d := by
  induction l generalizing p i with
  | nil => exact absurd hi (Nat.not_lt_zero i)
  | cons c l ih =>
    cases i with
    | zero => exact h.1
    | succ i =>
      have hnext := ih h.2 (Nat.lt_of_succ_lt_succ hi)
      rw [Nat.add_assoc, Nat.add_comm 1] at hnext
      exact hnext

theorem holdsAt_of_map (h : (List.range l.length).map (fun i ↦ s (p + i)) = l) : HoldsAt s p l := by
  induction l generalizing p with
  | nil => trivial
  | cons c l ih =>
    rw [List.length_cons, List.range_succ_eq_map, List.map_cons, List.map_map] at h
    have ⟨hc, hl⟩ := List.cons.inj h
    refine ⟨hc, ih ((List.map_congr_left fun i _ ↦ ?_).trans hl)⟩
    rw [Nat.add_assoc, Nat.add_comm 1]
    rfl

theorem HoldsAt.congr {s' : Nat → β} (hs : ∀ i, p ≤ i → i < p + l.length → s' i = s i)
    (h : HoldsAt s p l) : HoldsAt s' p l := by
  induction l generalizing p with
  | nil => trivial
  | cons c l ih =>
    rw [List.length_cons] at hs
    exact ⟨(hs p le_rfl (by omega)).trans h.1, ih (fun i hi hi' ↦ hs i (by omega) (by omega)) h.2⟩

/-- A stored list is looked up by the distance from its start. -/
theorem storeAt_apply :
    storeAt s p l i = if p ≤ i then (l[i - p]?).getD (s i) else s i := by
  induction l generalizing s p with
  | nil => simp [storeAt]
  | cons c l ih =>
    rw [storeAt, ih]
    rcases Nat.lt_trichotomy i p with hlt | rfl | hgt
    · rw [if_neg (by omega), if_neg (by omega), Function.update_of_ne hlt.ne]
    · simp
    · rw [if_pos (Nat.succ_le_of_lt hgt), if_pos hgt.le, Function.update_of_ne hgt.ne',
        show i - p = i - (p + 1) + 1 by omega, List.getElem?_cons_succ]

theorem storeAt_apply_of_lt (h : i < p) : storeAt s p l i = s i := by
  rw [storeAt_apply, if_neg (not_le.mpr h)]

theorem holdsAt_storeAt : HoldsAt (storeAt s p l) p l := by
  induction l generalizing s p with
  | nil => trivial
  | cons c l ih =>
    refine ⟨?_, ih⟩
    rw [storeAt, storeAt_apply_of_lt (Nat.lt_succ_self p), Function.update_self]

/-! ## The end mark -/

section Ends

variable [DecidableEq β] {fuel : Nat}

theorem upTo_eq (h : HoldsAt s p (l ++ [z])) (hz : z ∉ l) (hfuel : l.length < fuel) :
    upTo z s fuel p = some l := by
  induction fuel generalizing p l with
  | zero => omega
  | succ fuel ih =>
    rw [upTo]
    cases l with
    | nil => rw [if_pos h.1]
    | cons c l =>
      rw [List.mem_cons, not_or] at hz
      rw [h.1, if_neg (Ne.symm hz.1), ih h.2 hz.2 (Nat.lt_of_succ_lt_succ hfuel)]
      rfl

/-- An end mark is come upon. -/
theorem upTo_isSome (h : s q = z) (hpq : p ≤ q) (hfuel : q < p + fuel) :
    ∃ l, upTo z s fuel p = some l := by
  induction fuel generalizing p with
  | zero => omega
  | succ fuel ih =>
    rw [upTo]
    by_cases hp : s p = z
    · exact ⟨[], if_pos hp⟩
    · have hne : p ≠ q := by
        rintro rfl
        exact hp h
      obtain ⟨l, hl⟩ := @ih (p + 1) (by omega) (by omega)
      exact ⟨s p :: l, by rw [if_neg hp, hl]; rfl⟩

end Ends

end CString
