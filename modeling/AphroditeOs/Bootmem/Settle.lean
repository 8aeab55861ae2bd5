import AphroditeOs.Bootmem.Scan

/-!
# The page index a call settles on

What the two scans of a call answer on any node, read off the bitmap and the preferred page index
alone.
-/

namespace AphroditeOs

/-- The starts from page index `base` on that a scan does not step over. -/
def nodeStarts (s : BootState) (size align : Word) (base : Nat) : Set Nat :=
  StrideScan.openStarts s.busy (nodePages s.bdata).toNat (max (align.toNat / 4096) 1)
    ((size.toNat + 4095) / 4096) base

/-- The first multiple of the stride from page index `i` on. -/
def strideUp (align i : Word) : Nat := Align.roundUp i.toNat (max (align.toNat / 4096) 1)

/-- Page index `p` is the first open start from the preferred one on or, when there is none, the
first one from the offset on. -/
def SettlesAt (s : BootState) (size align goal : Word) (p : Nat) : Prop :=
  IsLeast (nodeStarts s size align (strideUp align (preferredPage s.bdata align goal))) p ∨
    nodeStarts s size align (strideUp align (preferredPage s.bdata align goal)) = ∅ ∧
      IsLeast (nodeStarts s size align (strideUp align (nodeOffset s.bdata align))) p

variable {ALIGN : Word → Word → Word} {s : BootState} {size align goal start : Word} {p : Nat}

theorem nodeStarts_viable {base : Nat} (h : p ∈ nodeStarts s size align base) :
    StrideScan.Viable s.busy (nodePages s.bdata).toNat (max (align.toNat / 4096) 1)
      ((size.toNat + 4095) / 4096) p := h.2.1

theorem SettlesAt.viable (h : SettlesAt s size align goal p) :
    StrideScan.Viable s.busy (nodePages s.bdata).toNat (max (align.toNat / 4096) 1)
      ((size.toNat + 4095) / 4096) p := by
  rcases h with h | ⟨-, h⟩
  · exact nodeStarts_viable h.1
  · exact nodeStarts_viable h.1

theorem SettlesAt.eq {q : Nat} (hp : SettlesAt s size align goal p)
    (hq : SettlesAt s size align goal q) : p = q := by
  rcases hp with hp | ⟨hnone, hp⟩ <;> rcases hq with hq | ⟨hnone', hq⟩
  · exact hp.unique hq
  · exact absurd hp.1 (hnone' ▸ Set.notMem_empty p)
  · exact absurd hq.1 (hnone ▸ Set.notMem_empty q)
  · exact hp.unique hq

/-- What one scan answers on such a node. -/
theorem restartScan_cases (hA : AlignSpec ALIGN) (hpages : (nodePages s.bdata).toNat < 2 ^ 31)
    (h : Admissible size align) (i : Word) :
    (restartScan ALIGN s size align i = .exhausted ∧
        nodeStarts s size align (strideUp align i) = ∅) ∨
      ∃ start, restartScan ALIGN s size align i = .found start ∧
        IsLeast (nodeStarts s size align (strideUp align i)) start.toNat := by
  have hpos : 0 < max (align.toNat / 4096) 1 := by omega
  have hdvd : max (align.toNat / 4096) 1 ∣ strideUp align i := Align.dvd_roundUp _ _
  have hans := restartScan_answers_of_pages hA hpages h.size_pos h.size_le (Or.inl h.align_pow) i
  cases hr : restartScan ALIGN s size align i with
  | hang =>
    rw [hr] at hans
    exact hans.elim
  | found start =>
    rw [hr] at hans
    exact Or.inr ⟨start, rfl, hans.found_isLeast hpos hdvd⟩
  | exhausted =>
    rw [hr] at hans
    refine Or.inl ⟨rfl, Set.eq_empty_iff_forall_notMem.mpr fun p hp ↦ ?_⟩
    have hodd := (hans.eq_exhausted_iff hpos hdvd).mp rfl p hp.1 hp.2.1
    exact Nat.not_even_iff_odd.mpr hodd hp.2.2

-- The first scan never begins below the offset.
theorem nodeOffset_le_preferredPage (b : BootmemData) (align goal : Word) :
    (nodeOffset b align).toNat ≤ (preferredPage b align goal).toNat := by
  have hshift : ∀ x : Word, (x >>> pageShift).toNat < 2 ^ 20 := by
    intro x
    rw [toNat_shiftRight_pageShift]
    omega
  have hoffset : (nodeOffset b align).toNat < 2 ^ 20 := hshift _
  unfold preferredPage
  dsimp only
  generalize nodeOffset b align = offset at hoffset ⊢
  have hle : ∀ x : Word, offset.toNat ≤ (x >>> pageShift + offset).toNat := by
    intro x
    have := hshift x
    rw [BitVec.toNat_add_of_lt (by omega)]
    omega
  exact hle _

theorem findStart_settlesAt (hA : AlignSpec ALIGN) (hpages : (nodePages s.bdata).toNat < 2 ^ 31)
    (h : Admissible size align) (goal : Word) :
    (findStart ALIGN s size align goal = .exhausted ∧ ∀ p, ¬ SettlesAt s size align goal p) ∨
      ∃ start, findStart ALIGN s size align goal = .found start ∧
        SettlesAt s size align goal start.toNat := by
  have hle := nodeOffset_le_preferredPage s.bdata align goal
  have hfirst := restartScan_cases hA hpages h (preferredPage s.bdata align goal)
  have hsecond := restartScan_cases hA hpages h (nodeOffset s.bdata align)
  unfold findStart SettlesAt
  generalize preferredPage s.bdata align goal = preferred at hle hfirst ⊢
  generalize nodeOffset s.bdata align = offset at hle hsecond ⊢
  dsimp only
  rcases hfirst with ⟨hr, hempty⟩ | ⟨start, hr, hstart⟩
  · have hnone : ∀ p : Nat, ¬ IsLeast (∅ : Set Nat) p := fun p hp ↦ hp.1
    simp only [hr, hnone, hempty, false_or, true_and]
    by_cases hlt : offset < preferred
    · rw [if_pos hlt]
      rcases hsecond with ⟨hr', hempty'⟩ | hfound
      · rw [hempty']
        exact Or.inl ⟨hr', hnone⟩
      · exact Or.inr hfound
    · -- the first scan was from the offset already
      have hsame : offset = preferred := by
        apply BitVec.eq_of_toNat_eq
        rw [BitVec.lt_def] at hlt
        omega
      rw [if_neg hlt, hsame, hempty]
      exact Or.inl ⟨rfl, hnone⟩
  · rw [hr]
    exact Or.inr ⟨start, rfl, Or.inl hstart⟩

end AphroditeOs
