import AphroditeOs.Lib.Align

/-!
# Strided first-fit scan

A scan for `len` consecutive free slots below `n` that starts only at multiples of `w`.  After a
start fails at slot `j` the scan goes on at `roundUp j w + w`, so it steps over `roundUp j w`.
The section says which start such a scan settles on, for any slots, stride and length.
-/

namespace StrideScan

open Align

inductive Result where
  | found (start : Nat)
  | exhausted
  | hang
  deriving DecidableEq, Repr

section

variable (busy : Nat → Bool) (n w len : Nat) (next : Nat → Nat)

/-- The first of `count` slots from `j` on that is busy or not below `n`. -/
def firstBusy : Nat → Nat → Option Nat
  | 0, _ => none
  | count + 1, j => if n ≤ j ∨ busy j then some j else firstBusy count (j + 1)

/-- `next i` is where a zero search from `i` stops, at a free slot or not. -/
def scan : Nat → Nat → Result
  | 0, _ => .hang
  | fuel + 1, i =>
    if i < n then
      let b := roundUp (next i) w
      if busy b then scan fuel (b + w)
      else match firstBusy busy n len b with
        | none => .found b
        | some j => scan fuel (roundUp j w + w)
    else .exhausted

/-- `len` slots from `s` on are free, and `s` is a start the scan may take. -/
def Viable (s : Nat) : Prop :=
  w ∣ s ∧ s + len ≤ n ∧ ∀ p, s ≤ p → p < s + len → busy p = false

/-- The stride block at `b` begins free and holds a busy slot. -/
def fragmented (b : Nat) : Bool := !busy b && (List.range w).any fun k ↦ busy (b + k)

/-- How many stride blocks in a row are fragmented, from block `t` of base `c` downwards. -/
def fragRun (c : Nat) : Nat → Nat
  | 0 => 0
  | t + 1 => if fragmented busy w (c + t * w) then fragRun c t + 1 else 0

/-- Block `t` of base `c` is stepped over. -/
def skipped (c : Nat) : Nat → Bool
  | 0 => false
  | t + 1 => fragmented busy w (c + t * w) && !skipped c t

/-- What a scan from block 0 of base `c` answers: the first viable start it does not step over. -/
def Answers (c : Nat) : Result → Prop
  | .found s => Viable busy n w len s ∧ ∃ t, s = c + t * w ∧ skipped busy w c t = false ∧
      ∀ u < t, Viable busy n w len (c + u * w) → skipped busy w c u = true
  | .exhausted => ∀ t, Viable busy n w len (c + t * w) → skipped busy w c t = true
  | .hang => False

end

variable {busy : Nat → Bool} {n w len : Nat} {next : Nat → Nat}

theorem firstBusy_eq_none {count j : Nat} (h : firstBusy busy n count j = none) :
    ∀ p, j ≤ p → p < j + count → p < n ∧ busy p = false := by
  induction count generalizing j with
  | zero =>
    intro p hlo hhi
    omega
  | succ count ih =>
    rw [firstBusy] at h
    split at h
    next => contradiction
    next hj =>
      intro p hlo hhi
      rcases Nat.eq_or_lt_of_le hlo with rfl | hlt
      · exact ⟨by omega, by simpa using fun hb ↦ hj (Or.inr hb)⟩
      · exact ih h p hlt (by omega)

theorem firstBusy_eq_some {count j k : Nat} (h : firstBusy busy n count j = some k) :
    j ≤ k ∧ k < j + count ∧ (n ≤ k ∨ busy k = true) ∧
      ∀ p, j ≤ p → p < k → p < n ∧ busy p = false := by
  induction count generalizing j with
  | zero => contradiction
  | succ count ih =>
    rw [firstBusy] at h
    split at h
    next hj =>
      obtain rfl := Option.some.inj h
      refine ⟨le_rfl, by omega, hj, fun p hlo hhi ↦ ?_⟩
      omega
    next hj =>
      obtain ⟨h₁, h₂, h₃, h₄⟩ := ih h
      refine ⟨by omega, by omega, h₃, fun p hlo hhi ↦ ?_⟩
      rcases Nat.eq_or_lt_of_le hlo with rfl | hlt
      · exact ⟨by omega, by simpa using fun hb ↦ hj (Or.inr hb)⟩
      · exact h₄ p hlt hhi

theorem fragmented_eq_true_iff {b : Nat} :
    fragmented busy w b = true ↔ busy b = false ∧ ∃ k < w, busy (b + k) = true := by
  simp [fragmented]

/-! ## Which blocks are stepped over -/

theorem skipped_eq_true_iff (c t : Nat) : skipped busy w c t = true ↔ Odd (fragRun busy w c t) := by
  induction t with
  | zero => simp [skipped, fragRun]
  | succ t ih =>
    rw [skipped, fragRun]
    by_cases hf : fragmented busy w (c + t * w) = true
    · rw [if_pos hf, hf, Bool.true_and, Nat.odd_add_one, ← ih]
      simp
    · rw [if_neg hf, Bool.eq_false_iff.mpr hf]
      simp

theorem skipped_succ_of_not_fragmented {c t : Nat} (h : fragmented busy w (c + t * w) = false) :
    skipped busy w c (t + 1) = false := by
  rw [skipped, h, Bool.false_and]

-- A block that is not stepped over may serve as a new base.
theorem skipped_rebase {c d : Nat} (hd : skipped busy w c d = false) (t : Nat) :
    skipped busy w c (d + t) = skipped busy w (c + d * w) t := by
  induction t with
  | zero => exact hd
  | succ t ih =>
    rw [← Nat.add_assoc, skipped, skipped, ih, Nat.add_mul, Nat.add_assoc]

-- With stride one no block is fragmented.
theorem fragRun_one (c t : Nat) : fragRun busy 1 c t = 0 := by
  cases t with
  | zero => rfl
  | succ t =>
    rw [fragRun, if_neg]
    rw [fragmented_eq_true_iff]
    rintro ⟨hfree, k, hk, hbusy⟩
    obtain rfl : k = 0 := by omega
    rw [Nat.add_zero, hfree] at hbusy
    contradiction

-- The scan from block `d` on answers for the scan from the base when the blocks below `d` hold no
-- start to take.
theorem Answers.rebase {c d : Nat} {r : Result} (hd : skipped busy w c d = false)
    (hlow : ∀ t < d, Viable busy n w len (c + t * w) → skipped busy w c t = true)
    (h : Answers busy n w len (c + d * w) r) : Answers busy n w len c r := by
  have hsplit : ∀ t, d ≤ t → c + t * w = c + d * w + (t - d) * w := by
    intro t ht
    rw [Nat.add_assoc, ← Nat.add_mul, Nat.add_sub_cancel' ht]
  cases r with
  | hang => exact h
  | exhausted =>
    intro t ht
    rcases Nat.lt_or_ge t d with hlt | hge
    · exact hlow t hlt ht
    · rw [hsplit t hge] at ht
      rw [← Nat.add_sub_cancel' hge, skipped_rebase hd]
      exact h _ ht
  | found s =>
    obtain ⟨hv, t, rfl, hnot, hfirst⟩ := h
    refine ⟨hv, d + t, by rw [Nat.add_mul, Nat.add_assoc], by rw [skipped_rebase hd, hnot], ?_⟩
    intro u hu huv
    rcases Nat.lt_or_ge u d with hlt | hge
    · exact hlow u hlt huv
    · rw [hsplit u hge] at huv
      rw [← Nat.add_sub_cancel' hge, skipped_rebase hd]
      exact hfirst _ (by omega) huv

-- A start at or below a busy slot `j` that its run would reach is not viable.
theorem not_viable_of_busy {s j : Nat} (hj : n ≤ j ∨ busy j = true) (hlo : s ≤ j)
    (hhi : j < s + len) : ¬ Viable busy n w len s := by
  rintro ⟨-, hfit, hfree⟩
  rcases hj with hn | hb
  · omega
  · rw [hfree j hlo hhi] at hb
    contradiction

/-! ## One pass of the scan -/

section

variable {c d j : Nat} {r : Result}

-- Blocks that begin busy are not fragmented, and hold no start to take.
theorem Answers.pass_busy (hlen : 0 < len) (hbusy : ∀ t < d, busy (c + t * w) = true)
    (h : Answers busy n w len (c + d * w) r) : Answers busy n w len c r := by
  have hskip : skipped busy w c d = false := by
    cases d with
    | zero => rfl
    | succ d =>
      apply skipped_succ_of_not_fragmented
      simp [fragmented, hbusy d (by omega)]
  refine h.rebase hskip fun t ht hv ↦ ?_
  exact absurd hv (not_viable_of_busy (Or.inr (hbusy t ht)) le_rfl (by omega))

-- A run of free slots from `c` on that leaves the node shows that no start from `c` on fits.
theorem Answers.pass_end (hn : n ≤ j) (hj : j < c + len) (hlo : c ≤ roundUp j w + w)
    (h : Answers busy n w len (roundUp j w + w) r) : Answers busy n w len c r := by
  have hnone : ∀ s, c ≤ s → ¬ Viable busy n w len s := fun s hs hv ↦ by
    have := hv.2.1
    omega
  cases r with
  | hang => exact h
  | found s =>
    obtain ⟨hv, t, rfl, -, -⟩ := h
    exact absurd hv (hnone _ (by omega))
  | exhausted => exact fun t hv ↦ absurd hv (hnone _ (Nat.le_add_right c _))

-- A stretch of free slots from `c` up to a busy `j` leads to the block after `roundUp j w`, and
-- that one is not stepped over.
theorem skipped_after_fragment (hw : 0 < w) (hc : w ∣ c) (hlo : c ≤ j)
    (hfree : ∀ p, c ≤ p → p < j → busy p = false) (hj : busy j = true) :
    ∃ e, c + e * w = roundUp j w ∧ skipped busy w c (e + 1) = false ∧
      (roundUp j w ≠ j → skipped busy w c e = true) := by
  have hup := le_roundUp j hw
  obtain ⟨e, he⟩ : ∃ e, roundUp j w = c + e * w := by
    obtain ⟨e, he⟩ := Nat.dvd_sub (dvd_roundUp j w) hc
    exact ⟨e, by rw [Nat.mul_comm] at he; omega⟩
  -- whole blocks before the one that holds `j` are free, so no parity changes over them
  have hclear : ∀ t, c + t * w ≤ j → skipped busy w c t = false := by
    intro t htj
    cases t with
    | zero => rfl
    | succ t =>
      rw [Nat.add_mul, Nat.one_mul] at htj
      apply skipped_succ_of_not_fragmented
      rw [Bool.eq_false_iff, Ne, fragmented_eq_true_iff]
      rintro ⟨-, k, hk, hbusy⟩
      rw [hfree (c + t * w + k) (by omega) (by omega)] at hbusy
      contradiction
  by_cases hjw : roundUp j w = j
  · -- `j` begins its own block, which is then not fragmented
    refine ⟨e, he.symm, ?_, fun hne ↦ absurd hjw hne⟩
    apply skipped_succ_of_not_fragmented
    simp [fragmented, ← he, hjw, hj]
  · -- `j` lies inside block `e - 1`, which is fragmented, so block `e` is stepped over
    have hlt := roundUp_lt j hw
    obtain ⟨f, rfl⟩ : ∃ f, e = f + 1 := by
      apply Nat.exists_eq_add_of_le'
      apply Nat.one_le_iff_ne_zero.mpr
      rintro rfl
      omega
    rw [Nat.add_mul, Nat.one_mul] at he
    have hfrag : fragmented busy w (c + f * w) = true := by
      rw [fragmented_eq_true_iff]
      refine ⟨hfree _ (by omega) (by omega), j - (c + f * w), by omega, ?_⟩
      rwa [Nat.add_sub_cancel' (by omega)]
    have hskip : skipped busy w c (f + 1) = true := by
      rw [skipped, hfrag, hclear f (by omega)]
      rfl
    refine ⟨f + 1, by rw [Nat.add_mul, Nat.one_mul, ← he], ?_, fun _ ↦ hskip⟩
    rw [skipped, hskip, Bool.not_true, Bool.and_false]

-- A run from `c` on that ends at a busy slot `j`: the only start missed is `roundUp j w`.
theorem Answers.pass_fragment (hw : 0 < w) (hc : w ∣ c) (hlo : c ≤ j) (hj : j < c + len)
    (hfree : ∀ p, c ≤ p → p < j → busy p = false) (hbusy : busy j = true)
    (h : Answers busy n w len (roundUp j w + w) r) : Answers busy n w len c r := by
  obtain ⟨e, he, hnext, hlast⟩ := skipped_after_fragment hw hc hlo hfree hbusy
  rw [← he, Nat.add_assoc, ← Nat.succ_mul] at h
  refine h.rebase hnext fun t ht hv ↦ ?_
  rcases Nat.lt_or_ge j (c + t * w) with hjt | hjt
  · -- a start above `j` is `roundUp j w` itself
    have hup := roundUp_le hw (Nat.dvd_add hc (Nat.dvd_mul_left w t)) hjt.le
    have hle : e ≤ t := Nat.le_of_mul_le_mul_right (by omega) hw
    obtain rfl : t = e := by omega
    exact hlast (by omega)
  · exact absurd hv (not_viable_of_busy (Or.inr hbusy) hjt (by omega))

-- The blocks between a slot and the one the search reaches from it begin busy.
theorem busy_below_next {i m : Nat} (hw : 0 < w) (hle : i ≤ m)
    (hpass : ∀ p, i ≤ p → p < m → busy p = true) :
    ∃ d, roundUp m w = roundUp i w + d * w ∧ ∀ t < d, busy (roundUp i w + t * w) = true := by
  have hci := le_roundUp i hw
  have hle' : roundUp i w ≤ roundUp m w :=
    roundUp_le hw (dvd_roundUp m w) (hle.trans (le_roundUp m hw))
  obtain ⟨d, hd⟩ := Nat.dvd_sub (dvd_roundUp m w) (dvd_roundUp i w)
  rw [Nat.mul_comm] at hd
  refine ⟨d, by omega, fun t ht ↦ hpass _ (by omega) ?_⟩
  by_contra hge
  have hup := roundUp_le hw (Nat.dvd_add (dvd_roundUp i w) (Nat.dvd_mul_left w t))
    (Nat.le_of_not_lt hge)
  have := Nat.mul_lt_mul_of_pos_right ht hw
  omega

/-- The scan answers with the first viable start it does not step over, or says that it steps
over all of them. -/
theorem scan_answers (hw : 0 < w) (hlen : 0 < len)
    (hnext : ∀ i < n, i ≤ next i ∧ ∀ p, i ≤ p → p < next i → busy p = true) (fuel i : Nat)
    (hpos : 0 < fuel) (hfuel : n < fuel + i) :
    Answers busy n w len (roundUp i w) (scan busy n w len next fuel i) := by
  induction fuel generalizing i with
  | zero => omega
  | succ fuel ih =>
    rw [scan]
    by_cases hin : i < n
    · rw [if_pos hin]
      dsimp only
      obtain ⟨hle, hpass⟩ := hnext i hin
      obtain ⟨d, hd, hbelow⟩ := busy_below_next hw hle hpass
      -- the blocks that the search passes hold no start, so it may count as the base
      refine Answers.pass_busy hlen hbelow ?_
      rw [← hd]
      have hbi := hle.trans (le_roundUp (next i) hw)
      have hdvd := dvd_roundUp (next i) w
      generalize roundUp (next i) w = b at hbi hdvd ⊢
      split
      next hb =>
        have hafter := ih (b + w) (by omega) (by omega)
        rw [roundUp_of_dvd hw (Nat.dvd_add_self_right.mpr hdvd)] at hafter
        refine Answers.pass_busy (d := 1) hlen (fun t ht ↦ ?_) (by rwa [Nat.one_mul])
        rwa [show t = 0 by omega, Nat.zero_mul, Nat.add_zero]
      next hb =>
        split
        next hnone =>
          have hfree := firstBusy_eq_none hnone
          have hlast := (hfree (b + len - 1) (by omega) (by omega)).1
          refine ⟨⟨hdvd, by omega, fun p hlo hhi ↦ (hfree p hlo hhi).2⟩, 0, ?_, rfl, ?_⟩
          · rw [Nat.zero_mul, Nat.add_zero]
          · exact fun u hu ↦ absurd hu (Nat.not_lt_zero u)
        next j hsome =>
          obtain ⟨hbj, hjlen, hj, hfree⟩ := firstBusy_eq_some hsome
          have hup := le_roundUp j hw
          have hafter := ih (roundUp j w + w) (by omega) (by omega)
          rw [roundUp_of_dvd hw (Nat.dvd_add_self_right.mpr (dvd_roundUp _ w))] at hafter
          rcases hj with hn | hbusy
          · exact hafter.pass_end hn hjlen (by omega)
          · exact hafter.pass_fragment hw hdvd hbj hjlen (fun p hlo hhi ↦ (hfree p hlo hhi).2)
              hbusy
    · rw [if_neg hin]
      intro t ht
      have hfit := ht.2.1
      have hci := le_roundUp i hw
      omega

end

/-! ## Answers at a given start -/

section

variable {c : Nat} {r : Result}

/-- A scan gives up exactly when it steps over every viable start from its base on. -/
theorem Answers.eq_exhausted_iff (hw : 0 < w) (hc : w ∣ c) (h : Answers busy n w len c r) :
    r = .exhausted ↔ ∀ p, c ≤ p → Viable busy n w len p → Odd (fragRun busy w c ((p - c) / w)) := by
  constructor
  · rintro rfl p hcp hp
    have hdiv : c + (p - c) / w * w = p := by
      rw [Nat.div_mul_cancel (Nat.dvd_sub hp.1 hc)]
      omega
    rw [← skipped_eq_true_iff]
    exact h _ (by rwa [hdiv])
  · intro hall
    cases r with
    | exhausted => rfl
    | hang => exact h.elim
    | found s =>
      obtain ⟨hv, t, rfl, hnot, -⟩ := h
      have hodd := hall _ (Nat.le_add_right c _) hv
      rw [Nat.add_sub_cancel_left, Nat.mul_div_cancel _ hw, ← skipped_eq_true_iff, hnot] at hodd
      contradiction

/-- The viable starts from base `c` on that a scan does not step over. -/
def openStarts (busy : Nat → Bool) (n w len c : Nat) : Set Nat :=
  {p | c ≤ p ∧ Viable busy n w len p ∧ Even (fragRun busy w c ((p - c) / w))}

/-- A scan settles on the least open start. -/
theorem Answers.found_isLeast {s : Nat} (hw : 0 < w) (hc : w ∣ c)
    (h : Answers busy n w len c (.found s)) : IsLeast (openStarts busy n w len c) s := by
  obtain ⟨hv, t, rfl, hnot, hfirst⟩ := h
  have hskip : ∀ u, skipped busy w c u = false → Even (fragRun busy w c u) := by
    intro u hu
    rw [← Nat.not_odd_iff_even, ← skipped_eq_true_iff, hu]
    exact Bool.false_ne_true
  constructor
  · refine ⟨Nat.le_add_right c _, hv, ?_⟩
    rw [Nat.add_sub_cancel_left, Nat.mul_div_cancel _ hw]
    exact hskip t hnot
  · rintro p ⟨hcp, hp, heven⟩
    by_contra hlt
    -- an open start below would be a block before block `t`
    have hdiv : c + (p - c) / w * w = p := by
      rw [Nat.div_mul_cancel (Nat.dvd_sub hp.1 hc)]
      omega
    have hbefore : (p - c) / w < t := by
      by_contra hge
      have := Nat.mul_le_mul_right w (Nat.le_of_not_lt hge)
      omega
    have hodd := hfirst _ hbefore (by rwa [hdiv])
    rw [skipped_eq_true_iff, ← Nat.not_even_iff_odd] at hodd
    exact hodd heven

-- With stride one every viable start is open.
theorem openStarts_one :
    openStarts busy n 1 len c = {p | c ≤ p ∧ Viable busy n 1 len p} := by
  ext p
  simp [openStarts, fragRun_one]

-- With stride one a scan settles on the first viable start from its base on.
theorem Answers.found_one {s : Nat} (h : Answers busy n 1 len c (.found s)) :
    Viable busy n 1 len s ∧ c ≤ s ∧ ∀ p, c ≤ p → p < s → ¬ Viable busy n 1 len p := by
  obtain ⟨hv, t, rfl, -, hfirst⟩ := h
  refine ⟨hv, by omega, fun p hcp hps hp ↦ ?_⟩
  have hskip := hfirst (p - c) (by omega) (by rwa [Nat.mul_one, Nat.add_sub_cancel' hcp])
  rw [skipped_eq_true_iff, fragRun_one] at hskip
  exact absurd hskip (by decide)

-- With stride one a scan gives up only when no start from its base on is viable.
theorem Answers.not_viable_of_one {p : Nat} (h : Answers busy n 1 len c .exhausted) (hcp : c ≤ p) :
    ¬ Viable busy n 1 len p := by
  intro hp
  have hskip := h (p - c) (by rwa [Nat.mul_one, Nat.add_sub_cancel' hcp])
  rw [skipped_eq_true_iff, fragRun_one] at hskip
  exact absurd hskip (by decide)

end

end StrideScan
