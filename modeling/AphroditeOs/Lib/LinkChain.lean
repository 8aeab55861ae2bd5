import Mathlib

/-!
# Chains of links

A doubly linked structure as a list in which neighbours are linked, and what remains of it when a
new element is linked in between two neighbours.
-/

namespace LinkChain

variable {α : Type*} {R S : α → α → Prop}

-- The last element links to nothing, and nothing links to the first.
theorem isChain_of_agree {c : List α} (h : c.IsChain R)
    (hagree : ∀ x ∈ c.dropLast, ∀ y ∈ c.tail, R x y → S x y) : c.IsChain S := by
  rw [List.isChain_iff_forall_rel_of_append_cons_cons] at h ⊢
  intro x y l r hsplit
  apply hagree x _ y _ (h hsplit)
  · rw [hsplit, List.dropLast_append_of_ne_nil (List.cons_ne_nil _ _)]
    simp
  · rw [hsplit]
    cases l <;> simp

/-- **Inserting between neighbours.** All other neighbours stay linked. -/
theorem isChain_insert {l r : List α} {a b n : α} (h : (l ++ a :: b :: r).IsChain R)
    (hleft : ∀ x ∈ l, ∀ y ∈ (l ++ [a]).tail, R x y → S x y)
    (hright : ∀ x ∈ (b :: r).dropLast, ∀ y ∈ r, R x y → S x y) (ha : S a n) (hb : S n b) :
    (l ++ a :: n :: b :: r).IsChain S := by
  obtain ⟨hl, hr⟩ := List.isChain_split.mp h
  have hl' : (l ++ [a]).IsChain S := by
    apply isChain_of_agree hl
    rw [List.dropLast_concat]
    exact hleft
  have hr' : (b :: r).IsChain S := isChain_of_agree hr.tail hright
  rw [List.isChain_split]
  exact ⟨hl', .cons_cons ha (.cons_cons hb hr')⟩

theorem exists_rel_of_mem_dropLast {c : List α} (h : c.IsChain R) {x : α} (hx : x ∈ c.dropLast) :
    ∃ y ∈ c.tail, R x y := by
  induction c with
  | nil => simp at hx
  | cons a c ih =>
    cases c with
    | nil => simp at hx
    | cons b c =>
      rw [List.isChain_cons_cons] at h
      rw [List.dropLast_cons_cons, List.mem_cons] at hx
      rcases hx with rfl | hx
      · exact ⟨b, List.mem_cons_self, h.1⟩
      · obtain ⟨y, hy, hxy⟩ := ih h.2 hx
        exact ⟨y, List.mem_cons_of_mem b hy, hxy⟩

theorem exists_rel_of_mem_tail {c : List α} (h : c.IsChain R) {y : α} (hy : y ∈ c.tail) :
    ∃ x ∈ c.dropLast, R x y := by
  have hreverse := List.isChain_reverse (R := fun x y ↦ R y x).mpr h
  rw [← List.mem_reverse, ← List.dropLast_reverse] at hy
  obtain ⟨x, hx, hxy⟩ := exists_rel_of_mem_dropLast hreverse hy
  rw [List.tail_reverse, List.mem_reverse] at hx
  exact ⟨x, hx, hxy⟩

/-- Following the links visits the chain. -/
theorem iterate_eq {f : α → α} {a : α} {c : List α} (h : (a :: c).IsChain fun x y ↦ f x = y) :
    List.iterate f (f a) c.length = c := by
  induction c generalizing a with
  | nil => rfl
  | cons b c ih =>
    rw [List.isChain_cons_cons] at h
    rw [List.length_cons, List.iterate, h.1, ih h.2]

end LinkChain
