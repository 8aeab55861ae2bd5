import Mathlib

/-!
# Sweeps of ranges

Ranges of numbers are taken one after another; each takes its numbers in ascending order and stops
at the first one that is taken already.  For overlapping ranges what is taken in the end depends on
their order.  The section says exactly when it does not.
-/

/-- The numbers from `start` up to, not including, `stop`. -/
structure Range where
  start : Nat
  stop : Nat
  deriving DecidableEq, Repr

namespace Range

instance : Membership Nat Range := ⟨fun r p ↦ r.start ≤ p ∧ p < r.stop⟩

theorem mem_iff {r : Range} {p : Nat} : p ∈ r ↔ r.start ≤ p ∧ p < r.stop := Iff.rfl

instance (p : Nat) (r : Range) : Decidable (p ∈ r) := inferInstanceAs (Decidable (_ ∧ _))

end Range

namespace Sweep

/-- `r` takes its numbers up to the first one in `taken`. -/
def sweepOne (taken : Set Nat) (r : Range) : Set Nat :=
  taken ∪ {p | p ∈ r ∧ ∀ q, r.start ≤ q → q ≤ p → q ∉ taken}

def sweepFrom (taken : Set Nat) (rs : List Range) : Set Nat := rs.foldl sweepOne taken

def sweep (rs : List Range) : Set Nat := sweepFrom ∅ rs

def cover (rs : List Range) : Set Nat := {p | ∃ r ∈ rs, p ∈ r}

/-- What lies at or above the end of a range and is covered at all is covered by a range that
starts at or above that end. -/
def NoStraddle (rs : List Range) : Prop :=
  ∀ b ∈ rs, b.start < b.stop → ∀ p ∈ cover rs, b.stop ≤ p → ∃ r ∈ rs, p ∈ r ∧ b.stop ≤ r.start

def PairwiseDisjoint (rs : List Range) : Prop := rs.Pairwise fun r s ↦ ∀ p, p ∈ r → p ∉ s

theorem subset_sweepOne (taken : Set Nat) (r : Range) : taken ⊆ sweepOne taken r :=
  Set.subset_union_left

theorem mem_sweepOne_iff {taken : Set Nat} {r : Range} {p : Nat} :
    p ∈ sweepOne taken r ↔ p ∈ taken ∨ p ∈ r ∧ ∀ q, r.start ≤ q → q ≤ p → q ∉ taken := Iff.rfl

theorem sweepOne_of_le {taken : Set Nat} {r : Range} (h : r.stop ≤ r.start) :
    sweepOne taken r = taken := by
  apply Set.Subset.antisymm _ (subset_sweepOne taken r)
  rintro p (hp | ⟨⟨hlo, hhi⟩, -⟩)
  · exact hp
  · omega

-- A range takes nothing at all exactly when it is empty or its first number is taken.
theorem sweepOne_eq_self_iff {taken : Set Nat} {r : Range} :
    sweepOne taken r = taken ↔ r.stop ≤ r.start ∨ r.start ∈ taken := by
  constructor
  · intro hsame
    by_contra hnot
    rw [not_or, Nat.not_le] at hnot
    have hnew : r.start ∈ sweepOne taken r :=
      Or.inr ⟨⟨le_rfl, hnot.1⟩, fun q hlo hhi ↦ by rw [le_antisymm hhi hlo]; exact hnot.2⟩
    rw [hsame] at hnew
    exact hnot.2 hnew
  · intro h
    apply Set.Subset.antisymm _ (subset_sweepOne taken r)
    rintro p (hp | ⟨⟨hlo, hhi⟩, hfree⟩)
    · exact hp
    · rcases h with hempty | hstart
      · omega
      · exact absurd hstart (hfree _ le_rfl hlo)

-- A range takes all of its numbers exactly when those taken before come last.
theorem subset_sweepOne_iff (taken : Set Nat) (r : Range) :
    (∀ p ∈ r, p ∈ sweepOne taken r) ↔
      ∀ p ∈ r, ∀ q ∈ r, p < q → p ∈ taken → q ∈ taken := by
  constructor
  · intro hall p hp q hq hpq htaken
    exact (hall q hq).resolve_right fun h ↦ h.2 p hp.1 hpq.le htaken
  · intro hlast p hp
    by_cases htaken : p ∈ taken
    · exact Or.inl htaken
    · refine Or.inr ⟨hp, fun q hlo hhi hq ↦ htaken ?_⟩
      rcases Nat.eq_or_lt_of_le hhi with rfl | hlt
      · exact hq
      · exact hlast q ⟨hlo, hlt.trans hp.2⟩ p hp hlt hq

theorem subset_sweepFrom (taken : Set Nat) (rs : List Range) : taken ⊆ sweepFrom taken rs := by
  induction rs generalizing taken with
  | nil => exact subset_rfl
  | cons r rs ih => exact (subset_sweepOne taken r).trans (ih _)

theorem sweepFrom_append (taken : Set Nat) (rs rs' : List Range) :
    sweepFrom taken (rs ++ rs') = sweepFrom (sweepFrom taken rs) rs' := List.foldl_append

theorem sweep_subset_cover (rs : List Range) : sweep rs ⊆ cover rs := by
  -- by induction on the ranges still to come
  have aux : ∀ (l : List Range) (taken : Set Nat), l ⊆ rs → taken ⊆ cover rs →
      sweepFrom taken l ⊆ cover rs := by
    intro l
    induction l with
    | nil => exact fun taken _ h ↦ h
    | cons r l ih =>
      intro taken hl h
      apply ih _ (List.subset_of_cons_subset hl)
      rintro p (hp | ⟨hp, -⟩)
      · exact h hp
      · exact ⟨r, hl List.mem_cons_self, hp⟩
  exact aux rs ∅ (List.Subset.refl rs) (Set.empty_subset _)

-- Ranges with nothing in them do not matter.
theorem sweepFrom_map_congr {ι : Type*} {f g : ι → Range} {es : List ι}
    (h : ∀ e ∈ es, f e = g e ∨ (f e).stop ≤ (f e).start ∧ (g e).stop ≤ (g e).start)
    (taken : Set Nat) : sweepFrom taken (es.map f) = sweepFrom taken (es.map g) := by
  induction es generalizing taken with
  | nil => rfl
  | cons e es ih =>
    rw [List.forall_mem_cons] at h
    have hone : sweepOne taken (f e) = sweepOne taken (g e) := by
      rcases h.1 with heq | ⟨hf, hg⟩
      · rw [heq]
      · rw [sweepOne_of_le hf, sweepOne_of_le hg]
    rw [List.map_cons, List.map_cons]
    change sweepFrom (sweepOne taken (f e)) _ = sweepFrom (sweepOne taken (g e)) _
    rw [hone, ih h.2]

-- A sweep of ranges below `n` does the same to what is taken below `n`.
theorem sweepFrom_inter {n : Nat} {rs : List Range} (h : ∀ r ∈ rs, r.stop ≤ n) (taken : Set Nat) :
    {p | p < n ∧ p ∈ sweepFrom taken rs} = sweepFrom {p | p < n ∧ p ∈ taken} rs := by
  induction rs generalizing taken with
  | nil => rfl
  | cons r rs ih =>
    rw [List.forall_mem_cons] at h
    change {p | p < n ∧ p ∈ sweepFrom (sweepOne taken r) rs} = sweepFrom (sweepOne _ r) rs
    rw [ih h.2]
    congr 1
    -- what is taken at or above `n` stops no range that ends below it
    ext p
    simp only [mem_sweepOne_iff, Set.mem_ofPred_eq, Range.mem_iff]
    constructor
    · rintro ⟨hp, hold | ⟨hr, hfree⟩⟩
      · exact Or.inl ⟨hp, hold⟩
      · exact Or.inr ⟨hr, fun q hlo hhi hq ↦ hfree q hlo hhi hq.2⟩
    · rintro (⟨hp, hold⟩ | ⟨hr, hfree⟩)
      · exact ⟨hp, Or.inl hold⟩
      · have hp : p < n := by omega
        exact ⟨hp, Or.inr ⟨hr, fun q hlo hhi hq ↦ hfree q hlo hhi ⟨by omega, hq⟩⟩⟩

theorem cover_perm {rs rs' : List Range} (h : rs.Perm rs') : cover rs = cover rs' := by
  ext p
  exact exists_congr fun r ↦ and_congr_left' h.mem_iff

theorem mem_sweep_cons_self {r : Range} {p : Nat} (rs : List Range) (hp : p ∈ r) :
    p ∈ sweep (r :: rs) :=
  subset_sweepFrom _ rs (Or.inr ⟨hp, fun _ _ _ h ↦ h⟩)

/-! ## Order independence -/

section

variable {rs : List Range} {p : Nat} {best : Range}

/-- Until the range with the highest start around `p` has its turn, nothing between that start
and `p` is taken, unless `p` is. -/
theorem gap_step (hns : NoStraddle rs) (hcov : p ∈ cover rs)
    (hbest : ∀ r ∈ rs, p ∈ r → r.start ≤ best.start) {r : Range} (hr : r ∈ rs) {taken : Set Nat}
    (h : p ∈ taken ∨ ∀ q, best.start ≤ q → q < p → q ∉ taken) :
    p ∈ sweepOne taken r ∨ ∀ q, best.start ≤ q → q < p → q ∉ sweepOne taken r := by
  by_cases hp : p ∈ sweepOne taken r
  · exact Or.inl hp
  right
  have hpt : p ∉ taken := fun h ↦ hp (subset_sweepOne _ _ h)
  have hgap := h.resolve_left hpt
  rintro q hlo hhi (hq | ⟨hqr, hfree⟩)
  · exact hgap q hlo hhi hq
  obtain ⟨hqs, hqe⟩ := hqr
  rcases Nat.lt_or_ge p r.stop with hpr | hpr
  · -- `r` reaches up to `p`, and nothing stops it on the way
    apply hp
    refine Or.inr ⟨⟨by omega, hpr⟩, fun x hx hxp hxt ↦ ?_⟩
    rcases Nat.lt_or_ge q x with hqx | hqx
    · rcases Nat.eq_or_lt_of_le hxp with rfl | hlt
      · exact hpt hxt
      · exact hgap x (by omega) hlt hxt
    · exact hfree x hx hqx hxt
  · -- `r` ends below `p`: another range around `p` starts above that end
    obtain ⟨s, hs, hps, hstart⟩ := hns r hr (by omega) p hcov hpr
    have := hbest s hs hps
    omega

theorem gap_sweepFrom (hns : NoStraddle rs) (hcov : p ∈ cover rs)
    (hbest : ∀ r ∈ rs, p ∈ r → r.start ≤ best.start) {l : List Range} (hl : l ⊆ rs)
    {taken : Set Nat} (h : p ∈ taken ∨ ∀ q, best.start ≤ q → q < p → q ∉ taken) :
    p ∈ sweepFrom taken l ∨ ∀ q, best.start ≤ q → q < p → q ∉ sweepFrom taken l := by
  induction l generalizing taken with
  | nil => exact h
  | cons r l ih =>
    exact ih (List.subset_of_cons_subset hl) (gap_step hns hcov hbest (hl List.mem_cons_self) h)

/-- Without straddling ranges everything that is covered is taken. -/
theorem sweep_eq_cover (hns : NoStraddle rs) : sweep rs = cover rs := by
  apply Set.Subset.antisymm (sweep_subset_cover rs)
  intro p hcov
  obtain ⟨r, hr, hpr⟩ := hcov
  -- of the ranges around `p` the one with the highest start takes it, unless it is taken before
  obtain ⟨best, hmem, hmax⟩ := Finset.exists_max_image (rs.toFinset.filter fun r ↦ p ∈ r)
    Range.start ⟨r, by simp [hr, hpr]⟩
  rw [Finset.mem_filter, List.mem_toFinset] at hmem
  have hbest : ∀ r ∈ rs, p ∈ r → r.start ≤ best.start := by
    intro s hs hps
    exact hmax s (by simp [hs, hps])
  obtain ⟨pre, post, hsplit⟩ := List.append_of_mem hmem.1
  have hsub : pre ⊆ rs := by
    rw [hsplit]
    exact List.subset_append_left _ _
  have hempty : p ∈ (∅ : Set Nat) ∨ ∀ q, best.start ≤ q → q < p → q ∉ (∅ : Set Nat) :=
    Or.inr fun q _ _ h ↦ h
  have hpre := gap_sweepFrom hns ⟨r, hr, hpr⟩ hbest hsub hempty
  rw [sweep, hsplit, sweepFrom_append]
  -- nothing is given back after the turn of `best`
  apply subset_sweepFrom _ post
  rcases hpre with hp | hgap
  · exact Or.inl hp
  · by_cases hp : p ∈ sweepFrom ∅ pre
    · exact Or.inl hp
    · refine Or.inr ⟨hmem.2, fun q hlo hhi hq ↦ ?_⟩
      rcases Nat.eq_or_lt_of_le hhi with rfl | hlt
      · exact hp hq
      · exact hgap q hlo hlt hq

-- A number at or above the end of the first range stays untaken when all ranges around it start
-- below that end.
theorem not_mem_sweep_cons {b : Range} (hb : b.start < b.stop) (hp : b.stop ≤ p)
    (hbelow : ∀ r ∈ rs, p ∈ r → r.start < b.stop) : p ∉ sweep (b :: rs) := by
  -- a range around `p` meets the last number of `b` on its way
  have aux : ∀ (l : List Range) (taken : Set Nat), l ⊆ rs → b.stop - 1 ∈ taken → p ∉ taken →
      p ∉ sweepFrom taken l := by
    intro l
    induction l with
    | nil => exact fun taken _ _ h ↦ h
    | cons r l ih =>
      intro taken hl hlast hpt
      apply ih _ (List.subset_of_cons_subset hl) (Or.inl hlast)
      rintro (h | ⟨hpr, hfree⟩)
      · exact hpt h
      · have := hbelow r (hl List.mem_cons_self) hpr
        exact hfree (b.stop - 1) (by omega) (by omega) hlast
  apply aux rs _ (List.Subset.refl rs)
  · exact Or.inr ⟨⟨by omega, by omega⟩, fun _ _ _ h ↦ h⟩
  · rintro (h | ⟨hpb, -⟩)
    · exact h
    · rw [Range.mem_iff] at hpb
      omega

theorem noStraddle_perm {rs' : List Range} (h : rs.Perm rs') (hns : NoStraddle rs) :
    NoStraddle rs' := by
  intro b hb hne p hp hle
  rw [← cover_perm h] at hp
  obtain ⟨r, hr, hpr⟩ := hns b (h.mem_iff.mpr hb) hne p hp hle
  exact ⟨r, h.mem_iff.mp hr, hpr⟩

/-- What is taken does not depend on the order exactly when no range straddles the end of
another one with nothing to make up for it. -/
theorem sweep_perm_iff :
    (∀ rs', rs.Perm rs' → sweep rs' = sweep rs) ↔ NoStraddle rs := by
  constructor
  · intro hperm b hb hne p hp hle
    by_contra hnone
    obtain ⟨a, ha, hpa⟩ := hp
    -- put first, `a` takes `p`; with `b` first nothing takes it
    have hfirst := hperm _ (List.perm_cons_erase ha)
    have hlast := hperm _ (List.perm_cons_erase hb)
    have hmem : p ∈ sweep (b :: rs.erase b) := by
      rw [hlast, ← hfirst]
      exact mem_sweep_cons_self _ hpa
    refine not_mem_sweep_cons hne hle ?_ hmem
    intro r hr hpr
    by_contra hge
    exact hnone ⟨r, List.mem_of_mem_erase hr, hpr, by omega⟩
  · intro hns rs' h
    rw [sweep_eq_cover hns, sweep_eq_cover (noStraddle_perm h hns), cover_perm h]

-- The same for ranges that a list of items stands for, when the items are reordered.
theorem sweep_map_perm_iff {ι : Type*} {f : ι → Range} {es : List ι} :
    (∀ es' : List ι, es'.Perm es → sweep (es'.map f) = sweep (es.map f)) ↔
      NoStraddle (es.map f) := by
  rw [← sweep_perm_iff]
  constructor
  · intro h rs' hperm
    have hcomp : Relation.Comp (fun l l' ↦ l = List.map f l') (fun l l' ↦ l.Perm l') rs' es := by
      rw [List.eq_map_comp_perm]
      exact hperm.symm
    obtain ⟨es', rfl, hes⟩ := hcomp
    exact h es' hes
  · exact fun h es' hes ↦ h _ (hes.symm.map f)

theorem noStraddle_of_pairwiseDisjoint (hd : PairwiseDisjoint rs) : NoStraddle rs := by
  intro b hb hne p hp hle
  obtain ⟨a, ha, hpa⟩ := hp
  refine ⟨a, ha, hpa, ?_⟩
  by_contra hlt
  -- then `a` and `b` share the last number of `b`
  have hlast : b.stop - 1 ∈ a := by
    rw [Range.mem_iff] at hpa ⊢
    omega
  have hlastb : b.stop - 1 ∈ b := by
    rw [Range.mem_iff]
    omega
  have hab : a ≠ b := by
    rintro rfl
    rw [Range.mem_iff] at hpa
    omega
  have : Std.Symm fun r s : Range ↦ ∀ p, p ∈ r → p ∉ s := ⟨fun r s h p hs hr ↦ h p hr hs⟩
  exact hd.forall ha hb hab _ hlast hlastb

end

end Sweep
