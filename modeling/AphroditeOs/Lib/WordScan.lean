import AphroditeOs.Lib.StrideScan

/-!
# Strided scans that search by words

The zero search of a scan that keeps one bit a slot looks at whole words, the rest of one and the one
after it, so that it may answer with a bit of no slot, or with a bit behind the words.  The section
says which scans with stride one try such a bit, for any slots and any length.
-/

namespace StrideScan

open Align

/-- The slots that a scan tries as a start, one a pass. -/
def tried (busy : Nat → Bool) (n w len : Nat) (next : Nat → Nat) : Nat → Nat → List Nat
  | 0, _ => []
  | fuel + 1, i =>
    if i < n then
      let b := roundUp (next i) w
      b :: if busy b then tried busy n w len next fuel (b + w)
        else match firstBusy busy n len b with
          | none => []
          | some j => tried busy n w len next fuel (roundUp j w + w)
    else []

/-- The bits of the words that keep the bits of `n` slots. -/
def mapBits (n : Nat) : Nat := 32 * ((n + 31) / 32)

/-- How many bits behind the map a search may look at: the word there, or only its first bit where
the slots fill the last word, so that the search has nothing left to look at. -/
def bitsBehind (n : Nat) : Nat := if n % 32 = 0 then 1 else 32

/-- What a search by words makes sure of.  It answers with a bit behind the map only from inside the
last word, with a set bit there only when it has found no clear one, and with a set bit in the last
word only when that is full. -/
structure WordSearch (busy : Nat → Bool) (n : Nat) (next : Nat → Nat) : Prop where
  le_next : ∀ i < n, i ≤ next i
  passed : ∀ i < n, ∀ p, i ≤ p → p < next i → busy p = true
  behind : ∀ i < n, mapBits n ≤ next i → n % 32 ≠ 1 ∧
    (busy (next i) = true ↔ ∀ p, mapBits n ≤ p → p < mapBits n + bitsBehind n → busy p = true)
  full : ∀ i < n, next i < mapBits n → busy (next i) = true → n ≤ next i + 1 →
    n % 32 = 1 ∧ ∀ p, next i ≤ p → p < mapBits n → busy p = true

/-- What takes a scan with stride one from slot `i` on out of the map: it gives up, the slots at the
end are reserved, and the last word of the map has bits for two slots or more. -/
structure RunsBehind (busy : Nat → Bool) (n len i : Nat) : Prop where
  inside : i < n
  rest : n % 32 ≠ 1
  none_fits : ∀ p, i ≤ p → ¬ Viable busy n 1 len p
  tail_busy : ∀ p, i ≤ p → n ≤ p + 2 → p < mapBits n → busy p = true

variable {busy : Nat → Bool} {n w len i m j : Nat} {next : Nat → Nat}

theorem le_mapBits (n : Nat) : n ≤ mapBits n := by
  unfold mapBits
  omega

/-- The passes of a scan, with fuel to come to the last slot: nothing is tried behind it, a reserved
slot leads to the next stride, and a free one settles the scan or leads on from the reserved slot
that it comes upon. -/
theorem tried_rec {P : Nat → List Nat → Prop} (hw : 0 < w) (hnext : ∀ i < n, i ≤ next i)
    (hend : ∀ i, n ≤ i → P i [])
    (hbusy : ∀ i < n, ∀ l, busy (roundUp (next i) w) = true → P (roundUp (next i) w + w) l →
      P i (roundUp (next i) w :: l))
    (hfree : ∀ i < n, busy (roundUp (next i) w) = false →
      firstBusy busy n len (roundUp (next i) w) = none → P i [roundUp (next i) w])
    (hfail : ∀ i < n, ∀ j l, busy (roundUp (next i) w) = false →
      firstBusy busy n len (roundUp (next i) w) = some j → P (roundUp j w + w) l →
      P i (roundUp (next i) w :: l))
    (fuel i : Nat) (hpos : 0 < fuel) (hfuel : n < fuel + i) :
    P i (tried busy n w len next fuel i) := by
  induction fuel generalizing i with
  | zero => omega
  | succ fuel ih =>
    rw [tried]
    by_cases hi : i < n
    · rw [if_pos hi]
      dsimp only
      have hle := (hnext i hi).trans (le_roundUp (next i) hw)
      by_cases hb : busy (roundUp (next i) w) = true
      · rw [if_pos hb]
        exact hbusy i hi _ hb (ih _ (by omega) (by omega))
      · rw [if_neg hb]
        have hclear := Bool.eq_false_iff.mpr hb
        cases hfirst : firstBusy busy n len (roundUp (next i) w) with
        | none => exact hfree i hi hclear hfirst
        | some j =>
          have hj := (firstBusy_eq_some hfirst).1.trans (le_roundUp j hw)
          exact hfail i hi j _ hclear hfirst (ih _ (by omega) (by omega))
    · rw [if_neg hi]
      exact hend i (not_lt.mp hi)

/-! ## Scans with nothing to place -/

/-- With nothing to place, the first free slot settles the scan. -/
theorem tried_zero_rec {P : Nat → List Nat → Prop} (hw : 0 < w) (hnext : ∀ i < n, i ≤ next i)
    (hend : ∀ i, n ≤ i → P i [])
    (hbusy : ∀ i < n, ∀ l, busy (roundUp (next i) w) = true → P (roundUp (next i) w + w) l →
      P i (roundUp (next i) w :: l))
    (hfree : ∀ i < n, busy (roundUp (next i) w) = false → P i [roundUp (next i) w])
    (fuel i : Nat) (hpos : 0 < fuel) (hfuel : n < fuel + i) :
    P i (tried busy n w 0 next fuel i) := by
  refine tried_rec hw hnext hend hbusy ?_ ?_ fuel i hpos hfuel
  · exact fun i hi hclear _ ↦ hfree i hi hclear
  · intro i hi j l hclear hfirst
    exact absurd hfirst (by simp [firstBusy])

-- Such a scan settles on the first free slot it tries.
theorem scan_zero_eq_exhausted_iff (hw : 0 < w) (hnext : ∀ i < n, i ≤ next i) (fuel i : Nat)
    (hpos : 0 < fuel) (hfuel : n < fuel + i) :
    scan busy n w 0 next fuel i = .exhausted ↔
      ∀ b ∈ tried busy n w 0 next fuel i, busy b = true := by
  induction fuel generalizing i with
  | zero => omega
  | succ fuel ih =>
    rw [scan, tried]
    by_cases hi : i < n
    · rw [if_pos hi, if_pos hi]
      dsimp only
      have hle := (hnext i hi).trans (le_roundUp (next i) hw)
      generalize roundUp (next i) w = b at hle ⊢
      by_cases hb : busy b = true
      · rw [if_pos hb, if_pos hb, ih (b + w) (by omega) (by omega), List.forall_mem_cons,
          and_iff_right hb]
      · rw [if_neg hb, if_neg hb]
        simp [firstBusy, hb]
    · rw [if_neg hi, if_neg hi]
      simp

/-- The slots tried are reserved when those are that a block begins with, and those tried behind the
last slot. -/
theorem tried_busy_iff_starts (hw : 0 < w) (hnext : ∀ i < n, i ≤ next i)
    (hpassed : ∀ i < n, ∀ p, i ≤ p → p < next i → busy p = true) (fuel i : Nat) (hpos : 0 < fuel)
    (hfuel : n < fuel + i) :
    (∀ b ∈ tried busy n w 0 next fuel i, busy b = true) ↔
      (∀ p, i ≤ p → p < n → w ∣ p → busy p = true) ∧
        ∀ b ∈ tried busy n w 0 next fuel i, n ≤ b → busy b = true := by
  have hbelow : ∀ i < n, ∀ p, i ≤ p → p < roundUp (next i) w → w ∣ p → busy p = true := by
    intro i hi p hlo hhi hp
    refine hpassed i hi p hlo ?_
    by_contra hge
    have hup := roundUp_le hw hp (Nat.le_of_not_lt hge)
    omega
  refine tried_zero_rec (P := fun i l ↦ (∀ b ∈ l, busy b = true) ↔
      (∀ p, i ≤ p → p < n → w ∣ p → busy p = true) ∧ ∀ b ∈ l, n ≤ b → busy b = true)
    hw hnext ?_ ?_ ?_ fuel i hpos hfuel
  · intro i hi
    apply iff_of_true
    · simp
    · exact ⟨fun p _ _ ↦ by omega, by simp⟩
  · intro i hi l hb ih
    have hle := (hnext i hi).trans (le_roundUp (next i) hw)
    have hdvd := dvd_roundUp (next i) w
    rw [List.forall_mem_cons, List.forall_mem_cons, and_iff_right hb, ih,
      and_iff_right (fun _ ↦ hb)]
    apply and_congr_left'
    constructor
    · intro hstarts p hlo hhi hp
      rcases Nat.lt_trichotomy p (roundUp (next i) w) with hlt | heq | hgt
      · exact hbelow i hi p hlo hlt hp
      · rwa [heq]
      · have hstep := Nat.le_of_dvd (by omega) (Nat.dvd_sub hp hdvd)
        exact hstarts p (by omega) hhi hp
    · exact fun hstarts p hlo ↦ hstarts p (by omega)
  · intro i hi hclear
    have hle := (hnext i hi).trans (le_roundUp (next i) hw)
    have hb := Bool.eq_false_iff.mp hclear
    apply iff_of_false
    · exact fun hall ↦ hb (hall _ List.mem_cons_self)
    · intro ⟨hstarts, htail⟩
      rcases Nat.lt_or_ge (roundUp (next i) w) n with hbn | hnb
      · exact hb (hstarts _ hle hbn (dvd_roundUp (next i) w))
      · exact hb (htail _ List.mem_cons_self hnb)

/-! ## Stride one -/

-- A pass over reserved pages changes nothing, unless it leaves the node.
theorem runsBehind_pass_busy (hlen : 0 < len) (hi : i < n) (him : i ≤ m)
    (hbusy : ∀ p, i ≤ p → p ≤ m → busy p = true) (hend : n ≤ m + 1 → n % 32 = 1) :
    RunsBehind busy n len i ↔ RunsBehind busy n len (m + 1) := by
  constructor
  · intro h
    constructor
    · by_contra hge
      exact h.rest (hend (Nat.le_of_not_lt hge))
    · exact h.rest
    · exact fun p hp ↦ h.none_fits p (by omega)
    · exact fun p hp ↦ h.tail_busy p (by omega)
  · intro h
    constructor
    · exact hi
    · exact h.rest
    · intro p hp
      rcases Nat.lt_or_ge m p with hmp | hpm
      · exact h.none_fits p hmp
      · exact not_viable_of_busy (Or.inr (hbusy p hp hpm)) le_rfl (by omega)
    · intro p hp hend hmap
      rcases Nat.lt_or_ge m p with hmp | hpm
      · exact h.tail_busy p hmp hend hmap
      · exact hbusy p hp hpm

theorem roundUp_one (x : Nat) : Align.roundUp x 1 = x :=
  Align.roundUp_of_dvd (by decide) (one_dvd x)

-- A pass that tries a reserved page inside the map.
theorem WordSearch.pass_busy (h : WordSearch busy n next) (hlen : 0 < len) (hi : i < n)
    (hlt : next i < mapBits n) (hb : busy (next i) = true) :
    RunsBehind busy n len i ↔ RunsBehind busy n len (next i + 1) := by
  apply runsBehind_pass_busy hlen hi (h.le_next i hi)
  · intro p hp hpm
    rcases Nat.lt_or_eq_of_le hpm with hplt | rfl
    · exact h.passed i hi p hp hplt
    · exact hb
  · exact fun hend ↦ (h.full i hi hlt hb hend).1

-- The bits that a search has passed are set, and so is the one it answers with.
theorem WordSearch.busy_from_iff (h : WordSearch busy n next) (hi : i < n)
    (hb : busy (next i) = true) : (∀ p, next i + 1 ≤ p → p < mapBits n → busy p = true) ↔
      ∀ p, i ≤ p → p < mapBits n → busy p = true := by
  constructor
  · intro hall p hp hmap
    rcases Nat.lt_trichotomy p (next i) with hpm | hpm | hmp
    · exact h.passed i hi p hp hpm
    · rwa [hpm]
    · exact hall p hmp hmap
  · have hle := h.le_next i hi
    exact fun hall p hp ↦ hall p (by omega)

/-- With nothing to place, a scan with stride one tries reserved pages only when the rest of the
map is set, and the bits behind it as well where the scan comes to those. -/
theorem tried_busy_iff (h : WordSearch busy n next) (fuel i : Nat) (hpos : 0 < fuel)
    (hfuel : n < fuel + i) :
    (∀ b ∈ tried busy n 1 0 next fuel i, busy b = true) ↔
      n ≤ i ∨ (∀ p, i ≤ p → p < mapBits n → busy p = true) ∧
        (n % 32 = 1 ∨ ∀ p, mapBits n ≤ p → p < mapBits n + bitsBehind n → busy p = true) := by
  refine tried_zero_rec (P := fun i l ↦ (∀ b ∈ l, busy b = true) ↔
      n ≤ i ∨ (∀ p, i ≤ p → p < mapBits n → busy p = true) ∧
        (n % 32 = 1 ∨ ∀ p, mapBits n ≤ p → p < mapBits n + bitsBehind n → busy p = true))
    Nat.one_pos h.le_next ?_ ?_ ?_ fuel i hpos hfuel
  · intro i hi
    apply iff_of_true
    · simp
    · exact Or.inl hi
  · intro i hi l hb ih
    rw [roundUp_one] at hb ih ⊢
    rw [or_iff_right (by omega), List.forall_mem_cons, and_iff_right hb, ih]
    have hpassed := h.passed i hi
    have hle := h.le_next i hi
    rcases Nat.lt_or_ge (next i) (mapBits n) with hlt | hge
    · by_cases hend : n ≤ next i + 1
      · -- the last pass, in a last word of one page
        have ⟨hrest, hall⟩ := h.full i hi hlt hb hend
        apply iff_of_true (Or.inl hend)
        refine ⟨fun p hp hmap ↦ ?_, Or.inl hrest⟩
        rcases Nat.lt_or_ge p (next i) with hpm | hmp
        · exact hpassed p hp hpm
        · exact hall p hmp hmap
      · rw [or_iff_right hend, h.busy_from_iff hi hb]
    · have hW := le_mapBits n
      exact iff_of_true (Or.inl (by omega))
        ⟨fun p hp hmap ↦ hpassed p hp (hmap.trans_le hge), Or.inr ((h.behind i hi hge).2.mp hb)⟩
  · intro i hi hclear
    rw [roundUp_one] at hclear ⊢
    have hb := Bool.eq_false_iff.mp hclear
    rw [or_iff_right (by omega)]
    apply iff_of_false
    · exact fun hall ↦ hb (hall _ List.mem_cons_self)
    · intro ⟨hall, hlast⟩
      rcases Nat.lt_or_ge (next i) (mapBits n) with hlt | hge
      · exact hb (hall _ (h.le_next i hi) hlt)
      · have ⟨hrest, hiff⟩ := h.behind i hi hge
        exact hlast.elim hrest fun hword ↦ hb (hiff.mpr hword)

end StrideScan
