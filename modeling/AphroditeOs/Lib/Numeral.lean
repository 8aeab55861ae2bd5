import Mathlib

/-!
# Numerals

The digits of a number, the high one first and at least one, and what a list of digits denotes; then
the same over the characters of an alphabet.
-/

namespace Numeral

/-- The digits from the low one on; the number 0 has one. -/
def lowFirst (b n : Nat) : List Nat := if n = 0 then [0] else Nat.digits b n

def digits (b n : Nat) : List Nat := (lowFirst b n).reverse

/-- What digits denote. -/
def value (b : Nat) (ds : List Nat) : Nat := ds.foldl (fun v d ↦ d + b * v) 0

variable {b n k : Nat}

theorem lowFirst_of_pos (h : 0 < n) : lowFirst b n = Nat.digits b n := if_neg h.ne'

/-- One digit is split off. -/
theorem lowFirst_eq (hb : 1 < b) :
    lowFirst b n = n % b :: if n / b = 0 then [] else lowFirst b (n / b) := by
  rcases Nat.eq_zero_or_pos n with rfl | hn
  · simp [lowFirst]
  · rw [lowFirst_of_pos hn, Nat.digits_def' hb hn]
    by_cases hq : n / b = 0
    · rw [if_pos hq, hq, Nat.digits_zero]
    · rw [if_neg hq, lowFirst_of_pos (Nat.pos_of_ne_zero hq)]

theorem lt_of_mem_lowFirst (hb : 1 < b) {d : Nat} (h : d ∈ lowFirst b n) : d < b := by
  rcases Nat.eq_zero_or_pos n with rfl | hn
  · rw [List.mem_singleton.mp h]
    exact Nat.zero_lt_of_lt hb
  · rw [lowFirst_of_pos hn] at h
    exact Nat.digits_lt_base hb h

theorem lt_of_mem_digits (hb : 1 < b) {d : Nat} (h : d ∈ digits b n) : d < b :=
  lt_of_mem_lowFirst hb (List.mem_reverse.mp h)

theorem length_digits : (digits b n).length = (lowFirst b n).length := List.length_reverse

theorem digits_ne_nil (hb : 1 < b) : digits b n ≠ [] := by
  rw [digits, ne_eq, List.reverse_eq_nil_iff, lowFirst_eq hb]
  exact List.cons_ne_nil _ _

theorem length_digits_le (hb : 1 < b) (hk : 0 < k) (h : n < b ^ k) : (digits b n).length ≤ k := by
  rw [length_digits]
  rcases Nat.eq_zero_or_pos n with rfl | hn
  · exact hk
  · rw [lowFirst_of_pos hn]
    exact (Nat.digits_length_le_iff hb n).mpr h

/-- A numeral begins with 0 only if it is "0". -/
theorem digits_eq_cons {d : Nat} {ds : List Nat} (h : digits b n = d :: ds) (hds : ds ≠ []) :
    d ≠ 0 := by
  rcases Nat.eq_zero_or_pos n with rfl | hn
  · exact absurd (List.cons.inj h).2.symm hds
  · have hlast : (Nat.digits b n).getLast (Nat.digits_ne_nil_iff_ne_zero.mpr hn.ne') = d := by
      have hrev : Nat.digits b n = (d :: ds).reverse := by
        rw [← h, digits, List.reverse_reverse, lowFirst_of_pos hn]
      simp [hrev]
    rw [← hlast]
    exact Nat.getLast_digit_ne_zero b hn.ne'

theorem value_append (ds es : List Nat) :
    value b (ds ++ es) = es.foldl (fun v d ↦ d + b * v) (value b ds) := List.foldl_append

theorem value_replicate_zero : value b (List.replicate k 0) = 0 := by
  induction k with
  | zero => rfl
  | succ k ih =>
    rw [List.replicate_succ', value_append, ih]
    rfl

/-- Leading zeros do not count. -/
theorem value_zeros_append (ds : List Nat) : value b (List.replicate k 0 ++ ds) = value b ds := by
  rw [value_append, value_replicate_zero, value]

theorem value_digits : value b (digits b n) = n := by
  rw [value, digits, List.foldl_reverse]
  rcases Nat.eq_zero_or_pos n with rfl | hn
  · simp [lowFirst]
  · rw [lowFirst_of_pos hn]
    have hof := Nat.ofDigits_digits b n
    rwa [Nat.ofDigits_eq_foldr] at hof

end Numeral

/-! ## Alphabets -/

/-- Characters for the digits of a base, and how they are told. -/
structure Alphabet (α : Type*) (b : Nat) where
  char : Nat → α
  val : α → Option Nat
  val_char : ∀ d < b, val (char d) = some d

namespace Alphabet

variable {α : Type*} {b : Nat} (A : Alphabet α b)

/-- The numeral of a number. -/
def text (n : Nat) : List α := (Numeral.digits b n).map A.char

/-- The number that a text denotes; `none` if it is no text of digits. -/
def read (text : List α) : Option Nat :=
  if text = [] then none else (text.mapM A.val).map (Numeral.value b)

/-- Without superfluous leading zeros. -/
def Canonical (text : List α) : Prop := text.head? = some (A.char 0) → text = [A.char 0]

variable {A} {n k : Nat}

theorem mapM_map_char {ds : List Nat} (h : ∀ d ∈ ds, d < b) :
    (ds.map A.char).mapM A.val = some ds := by
  induction ds with
  | nil => rfl
  | cons d ds ih =>
    rw [List.forall_mem_cons] at h
    simp [ih h.2, A.val_char d h.1]

theorem read_map_char {ds : List Nat} (hne : ds ≠ []) (h : ∀ d ∈ ds, d < b) :
    A.read (ds.map A.char) = some (Numeral.value b ds) := by
  rw [read, if_neg (by simpa using hne), mapM_map_char h]
  rfl

/-- A numeral reads back, with any leading zeros. -/
theorem read_zeros_text (hb : 1 < b) :
    A.read (List.replicate k (A.char 0) ++ A.text n) = some n := by
  have hzeros : List.replicate k (A.char 0) ++ A.text n =
      (List.replicate k 0 ++ Numeral.digits b n).map A.char := by
    rw [List.map_append, List.map_replicate, text]
  have hne : List.replicate k 0 ++ Numeral.digits b n ≠ [] := by
    simp [Numeral.digits_ne_nil hb]
  rw [hzeros, read_map_char hne, Numeral.value_zeros_append, Numeral.value_digits]
  intro d hd
  rcases List.mem_append.mp hd with hzero | hdigit
  · rw [List.eq_of_mem_replicate hzero]
    exact Nat.zero_lt_of_lt hb
  · exact Numeral.lt_of_mem_digits hb hdigit

theorem read_text (hb : 1 < b) : A.read (A.text n) = some n := @read_zeros_text α b A n 0 hb

/-- A character that is no digit spoils a text. -/
theorem read_eq_none {text : List α} {c : α} (hc : c ∈ text) (h : A.val c = none) :
    A.read text = none := by
  have hnone : text.mapM A.val = none := by
    induction text with
    | nil => simp at hc
    | cons d text ih =>
      rcases List.mem_cons.mp hc with rfl | hrest
      · simp [h]
      · simp [ih hrest]
  rw [read, if_neg (List.ne_nil_of_mem hc), hnone]
  rfl

theorem length_text : (A.text n).length = (Numeral.digits b n).length := List.length_map _

theorem forall_mem_text (hb : 1 < b) {P : α → Prop} (h : ∀ d < b, P (A.char d)) :
    ∀ c ∈ A.text n, P c := by
  intro c hc
  obtain ⟨d, hd, rfl⟩ := List.mem_map.mp hc
  exact h d (Numeral.lt_of_mem_digits hb hd)

theorem canonical_text (hb : 1 < b) : A.Canonical (A.text n) := by
  intro hhead
  rw [text] at hhead ⊢
  cases hds : Numeral.digits b n with
  | nil => exact absurd hds (Numeral.digits_ne_nil hb)
  | cons d ds =>
    rw [hds, List.map_cons, List.head?_cons] at hhead
    have hd : d < b := Numeral.lt_of_mem_digits hb (hds ▸ List.mem_cons_self)
    have hzero : d = 0 := by
      have hval := congrArg A.val (Option.some.inj hhead)
      rw [A.val_char d hd, A.val_char 0 (Nat.zero_lt_of_lt hb)] at hval
      exact Option.some.inj hval
    by_cases hnil : ds = []
    · rw [hnil, hzero]
      rfl
    · exact absurd hzero (Numeral.digits_eq_cons hds hnil)

end Alphabet
