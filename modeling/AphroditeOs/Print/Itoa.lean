import AphroditeOs.Lib.CString
import AphroditeOs.Lib.Numeral
import AphroditeOs.Lib.WhileLoop
import AphroditeOs.Loader.Image
import AphroditeOs.Page

/-!
# Numbers as text (`lib/print.c`)

`itoa` on the buffer that it is given, by indices from its start.
-/

namespace AphroditeOs

open CString (storeAt)

/-- `(remainder < 10) ? remainder + '0' : remainder - 10 + 'a'` -/
def itoaDigit (remainder : Word) : Byte :=
  (if remainder.slt 10#32 then remainder + 48#32 else remainder - 10#32 + 97#32).setWidth 8

/-- The `do`-`while` loop; what `p` points to after it, and the buffer. -/
def itoaDigits (divisor : Word) : Nat → Word → Nat → (Nat → Byte) → Option (Nat × (Nat → Byte))
  | 0, _, _, _ => none
  | fuel + 1, unum, p, buf =>
    let buf := Function.update buf p (itoaDigit (unum % divisor))
    if unum / divisor ≠ 0#32 then itoaDigits divisor fuel (unum / divisor) (p + 1) buf
    else some (p + 1, buf)

/-- The pointers that reverse the buffer. -/
structure Reversal where
  p1 : Nat
  p2 : Nat
  buf : Nat → Byte

def Reversal.swap (s : Reversal) : Reversal :=
  { p1 := s.p1 + 1
    p2 := s.p2 - 1
    buf := Function.update (Function.update s.buf s.p1 (s.buf s.p2)) s.p2 (s.buf s.p1) }

/-- `base` is one of the letters `'d'`, `'x'` and `'u'`; `none` when the fuel runs out. -/
def itoa (fuel : Nat) (buf : Nat → Byte) (base : Byte) (num : Word) : Option (Nat → Byte) :=
  let negative := num.slt 0#32 ∧ base = 100#8
  let unum := if negative then -num else num
  -- `*p++ = '-'` moves the start of the buffer as well
  let p := if negative then 1 else 0
  let buf := if negative then Function.update buf 0 45#8 else buf
  let divisor := if ¬ negative ∧ base = 120#8 then 16#32 else 10#32
  (itoaDigits divisor fuel unum p buf).bind fun r ↦
    (WhileLoop.run (fun s ↦ s.p1 < s.p2) Reversal.swap fuel
      ⟨p, r.1 - 1, Function.update r.2 r.1 0#8⟩).map (·.buf)

/-! ## Digits -/

/-- Lower-case digits. -/
def asciiDigit (d : Nat) : Byte := BitVec.ofNat 8 (if d < 10 then d + 48 else d - 10 + 97)

def asciiValue (c : Byte) : Option Nat :=
  if 48 ≤ c.toNat ∧ c.toNat ≤ 57 then some (c.toNat - 48)
  else if 97 ≤ c.toNat ∧ c.toNat ≤ 122 then some (c.toNat - 97 + 10)
  else none

def ascii (b : Nat) (hb : b ≤ 16) : Alphabet Byte b where
  char := asciiDigit
  val c := (asciiValue c).filter (· < b)
  val_char d hd := by
    have hvalue : asciiValue (asciiDigit d) = some d := by
      have hlt : d < 16 := Nat.lt_of_lt_of_le hd hb
      interval_cases d <;> rfl
    rw [hvalue]
    simp [hd]

def decimal : Alphabet Byte 10 := ascii 10 (by decide)

def hex : Alphabet Byte 16 := ascii 16 (by decide)

theorem itoaDigit_ofNat {d : Nat} (h : d < 16) : itoaDigit (BitVec.ofNat 32 d) = asciiDigit d := by
  interval_cases d <;> rfl

/-- The loop stores the digits from the low one on. -/
theorem itoaDigits_eq {b fuel : Nat} (hb : 1 < b) (hb16 : b ≤ 16) {unum : Word} {p : Nat}
    {buf : Nat → Byte} (hfuel : (Numeral.lowFirst b unum.toNat).length ≤ fuel) :
    itoaDigits (BitVec.ofNat 32 b) fuel unum p buf =
      some (p + (Numeral.lowFirst b unum.toNat).length,
        storeAt buf p ((Numeral.lowFirst b unum.toNat).map asciiDigit)) := by
  induction fuel generalizing unum p buf with
  | zero =>
    rw [Numeral.lowFirst_eq hb] at hfuel
    exact absurd hfuel (Nat.not_succ_le_zero _)
  | succ fuel ih =>
    have hbase : (BitVec.ofNat 32 b).toNat = b := toNat_ofNat_of_lt (by omega)
    have hquot : (unum / BitVec.ofNat 32 b).toNat = unum.toNat / b := by
      rw [BitVec.toNat_udiv, hbase]
    have hrem : unum % BitVec.ofNat 32 b = BitVec.ofNat 32 (unum.toNat % b) := by
      apply BitVec.eq_of_toNat_eq
      have hlt := Nat.mod_lt unum.toNat (Nat.zero_lt_of_lt hb)
      rw [BitVec.toNat_umod, hbase, toNat_ofNat_of_lt (by omega)]
    have hdigit := itoaDigit_ofNat (show unum.toNat % b < 16 from
      (Nat.mod_lt _ (Nat.zero_lt_of_lt hb)).trans_le hb16)
    rw [Numeral.lowFirst_eq hb] at hfuel ⊢
    rw [itoaDigits, hrem, hdigit]
    by_cases hq : unum.toNat / b = 0
    · have hzero : unum / BitVec.ofNat 32 b = 0#32 := BitVec.eq_of_toNat_eq (hquot.trans hq)
      rw [hzero, if_neg (not_not.mpr rfl), if_pos hq]
      rfl
    · have hne : unum / BitVec.ofNat 32 b ≠ 0#32 := by
        intro hzero
        rw [hzero] at hquot
        exact hq hquot.symm
      rw [if_neg hq, List.length_cons] at hfuel
      rw [if_pos hne, if_neg hq, ih (by rw [hquot]; omega), hquot, List.map_cons, storeAt,
        List.length_cons, Nat.add_assoc, Nat.add_comm 1]

/-! ## Reversal -/

/-- The part of a buffer from `lo` to `hi` the other way round. -/
def reversed (buf : Nat → Byte) (lo hi : Nat) : Nat → Byte :=
  fun i ↦ if lo ≤ i ∧ i ≤ hi then buf (lo + hi - i) else buf i

theorem reversed_swap {lo hi : Nat} (buf : Nat → Byte) (h : lo < hi) :
    reversed (Reversal.swap ⟨lo, hi, buf⟩).buf (lo + 1) (hi - 1) = reversed buf lo hi := by
  ext1 i
  have hsum : lo + 1 + (hi - 1) = lo + hi := by omega
  simp only [reversed, Reversal.swap, hsum, Function.update_apply]
  rcases Nat.lt_trichotomy i lo with hlt | rfl | hgt
  · simp [show ¬ lo + 1 ≤ i by omega, show ¬ lo ≤ i by omega, show i ≠ hi by omega, hlt.ne]
  · simp [h.le, h.ne]
  · rcases Nat.lt_trichotomy i hi with hlt' | rfl | hgt'
    · simp [show lo + 1 ≤ i by omega, show i ≤ hi - 1 by omega, hgt.le, hlt'.le,
        show lo + hi - i ≠ hi by omega, show lo + hi - i ≠ lo by omega]
    · simp [show ¬ i ≤ i - 1 by omega, h.le]
    · simp [show ¬ i ≤ hi - 1 by omega, show ¬ i ≤ hi by omega, hgt'.ne', hgt.ne']

theorem reversal_run {fuel lo hi : Nat} {buf : Nat → Byte} (hpos : 0 < fuel)
    (hfuel : hi + 1 < lo + 2 * fuel) :
    (WhileLoop.run (fun s ↦ s.p1 < s.p2) Reversal.swap fuel ⟨lo, hi, buf⟩).map (·.buf) =
      some (reversed buf lo hi) := by
  induction fuel generalizing lo hi buf with
  | zero => omega
  | succ fuel ih =>
    rw [WhileLoop.run]
    by_cases hgo : lo < hi
    · rw [if_pos hgo, ← reversed_swap buf hgo]
      exact ih (by omega) (show hi - 1 + 1 < lo + 1 + 2 * fuel by omega)
    · rw [if_neg hgo]
      have hsame : reversed buf lo hi = buf := by
        ext1 i
        rw [reversed]
        by_cases hin : lo ≤ i ∧ i ≤ hi
        · rw [if_pos hin, show lo + hi - i = i by omega]
        · rw [if_neg hin]
      rw [hsame]
      rfl

theorem reversed_storeAt (buf : Nat → Byte) (p : Nat) {l : List Byte} (hl : l ≠ []) (m : List Byte) :
    reversed (storeAt buf p (l ++ m)) p (p + l.length - 1) = storeAt buf p (l.reverse ++ m) := by
  have hlen : 0 < l.length := List.length_pos_of_ne_nil hl
  ext1 i
  rw [reversed]
  by_cases hin : p ≤ i ∧ i ≤ p + l.length - 1
  · rw [if_pos hin, CString.storeAt_apply, CString.storeAt_apply, if_pos (by omega), if_pos hin.1,
      List.getElem?_append_left (by omega),
      List.getElem?_append_left (by rw [List.length_reverse]; omega),
      List.getElem?_reverse (by omega), List.getElem?_eq_getElem (by omega),
      List.getElem?_eq_getElem (by omega)]
    simp only [Option.getD_some]
    congr 1
    omega
  · rw [if_neg hin, CString.storeAt_apply, CString.storeAt_apply]
    by_cases hlo : p ≤ i
    · rw [if_pos hlo, if_pos hlo, List.getElem?_append_right (by omega),
        List.getElem?_append_right (by rw [List.length_reverse]; omega), List.length_reverse]
    · rw [if_neg hlo, if_neg hlo]

/-! ## The text -/

/-- The shortest numeral of `num`, signed for the base `'d'`. -/
def itoaText (base : Byte) (num : Word) : List Byte :=
  if num.slt 0#32 ∧ base = 100#8 then 45#8 :: decimal.text (-num).toNat
  else if base = 120#8 then hex.text num.toNat
  else decimal.text num.toNat

theorem storeAt_concat (buf : Nat → Byte) (p : Nat) (l : List Byte) (c : Byte) :
    Function.update (storeAt buf p l) (p + l.length) c = storeAt buf p (l ++ [c]) := by
  rw [CString.storeAt_append]
  rfl

theorem length_lowFirst_le {b : Nat} (hb : 10 ≤ b) (num : Word) :
    (Numeral.lowFirst b num.toNat).length ≤ 10 := by
  rw [← Numeral.length_digits]
  apply Numeral.length_digits_le (by omega) (by decide)
  exact num.isLt.trans_le ((show 2 ^ 32 ≤ 10 ^ 10 by decide).trans (Nat.pow_le_pow_left hb 10))

/-- The digits of a number, stored and reversed. -/
theorem itoaDigits_bind {b fuel : Nat} (hb : 10 ≤ b) (hb16 : b ≤ 16) (hfuel : 11 ≤ fuel)
    (unum : Word) (p : Nat) (buf : Nat → Byte) :
    ((itoaDigits (BitVec.ofNat 32 b) fuel unum p buf).bind fun r ↦
      (WhileLoop.run (fun s ↦ s.p1 < s.p2) Reversal.swap fuel
        ⟨p, r.1 - 1, Function.update r.2 r.1 0#8⟩).map (·.buf)) =
      some (storeAt buf p ((ascii b hb16).text unum.toNat ++ [0#8])) := by
  have hlen := length_lowFirst_le hb unum
  have hne : (Numeral.lowFirst b unum.toNat).map asciiDigit ≠ [] := by
    rw [Numeral.lowFirst_eq (by omega)]
    simp
  rw [itoaDigits_eq (by omega) hb16 (by omega), Option.bind_some]
  dsimp only
  rw [← @List.length_map _ _ (Numeral.lowFirst b unum.toNat) asciiDigit, storeAt_concat,
    reversal_run (by omega) (by rw [List.length_map]; omega), reversed_storeAt buf p hne,
    ← List.map_reverse]
  rfl

/-- **`itoa` stores the numeral and a null byte**, and nothing else. -/
theorem itoa_eq {fuel : Nat} (hfuel : 11 ≤ fuel) (buf : Nat → Byte) (base : Byte) (num : Word) :
    itoa fuel buf base num = some (storeAt buf 0 (itoaText base num ++ [0#8])) := by
  have hdecimal := @itoaDigits_bind 10 fuel (by decide) (by decide) hfuel
  have hhex := @itoaDigits_bind 16 fuel (by decide) (by decide) hfuel
  rw [itoa, itoaText]
  by_cases hneg : num.slt 0#32 ∧ base = 100#8
  · have hbase : ¬ (¬ (num.slt 0#32 = true ∧ base = 100#8) ∧ base = 120#8) := fun h ↦ h.1 hneg
    simp only [if_pos hneg, if_neg hbase]
    exact hdecimal (-num) 1 (Function.update buf 0 45#8)
  · simp only [if_neg hneg]
    by_cases hx : base = 120#8
    · have hbase : ¬ (num.slt 0#32 = true ∧ base = 100#8) ∧ base = 120#8 := ⟨hneg, hx⟩
      simp only [if_pos hbase, if_pos hx]
      exact hhex num 0 buf
    · have hbase : ¬ (¬ (num.slt 0#32 = true ∧ base = 100#8) ∧ base = 120#8) := fun h ↦ hx h.2
      simp only [if_neg hbase, if_neg hx]
      exact hdecimal num 0 buf

/-! ## Reading back -/

/-- The number that a text denotes, with at most one leading `'-'` for the base `'d'`. -/
def readNumeral (base : Byte) (text : List Byte) : Option Int :=
  if base = 100#8 then
    if text.head? = some 45#8 then (decimal.read text.tail).map fun n : Nat ↦ -(n : Int)
    else (decimal.read text).map fun n : Nat ↦ (n : Int)
  else if base = 120#8 then (hex.read text).map fun n : Nat ↦ (n : Int)
  else (decimal.read text).map fun n : Nat ↦ (n : Int)

/-- The number that `itoa` is given. -/
def itoaValue (base : Byte) (num : Word) : Int :=
  if base = 100#8 then num.toInt else num.toNat

/-- What the text of a number is to be. -/
structure CanonicalText (base : Byte) (num : Word) (text : List Byte) : Prop where
  ends : 0#8 ∉ text
  length : text.length + 1 ≤ 12
  sign : 45#8 ∈ text → base = 100#8 ∧ num.toInt < 0
  leading : decimal.Canonical (if text.head? = some 45#8 then text.tail else text)
  reads : readNumeral base text = some (itoaValue base num)

theorem asciiDigit_ne {d : Nat} (h : d < 16) : asciiDigit d ≠ 0#8 ∧ asciiDigit d ≠ 45#8 := by
  interval_cases d <;> decide

theorem ne_of_mem_text {b : Nat} {hb16 : b ≤ 16} (hb : 1 < b) {n : Nat} :
    ∀ c ∈ (ascii b hb16).text n, c ≠ 0#8 ∧ c ≠ 45#8 :=
  Alphabet.forall_mem_text hb fun _ hd ↦ asciiDigit_ne (hd.trans_le hb16)

theorem toInt_of_slt {num : Word} (h : num.slt 0#32) : num.toInt = -((-num).toNat : Int) := by
  have hlt : num.toInt < 0 := BitVec.slt_iff_toInt_lt.mp h
  have hbound := num.isLt
  rw [BitVec.toNat_neg]
  rw [BitVec.toInt_eq_toNat_cond] at hlt ⊢
  by_cases hhalf : 2 * num.toNat < 2 ^ 32
  · rw [if_pos hhalf] at hlt
    omega
  · rw [if_neg hhalf]
    omega

theorem toInt_of_not_slt {num : Word} (h : ¬ num.slt 0#32) : num.toInt = num.toNat := by
  have hle : ¬ num.toInt < 0 := fun hlt ↦ h (BitVec.slt_iff_toInt_lt.mpr hlt)
  have hbound := num.isLt
  rw [BitVec.toInt_eq_toNat_cond] at hle ⊢
  by_cases hhalf : 2 * num.toNat < 2 ^ 32
  · rw [if_pos hhalf]
  · rw [if_neg hhalf] at hle
    omega

theorem length_text_le {b : Nat} {hb16 : b ≤ 16} (hb : 10 ≤ b) (num : Word) :
    ((ascii b hb16).text num.toNat).length ≤ 10 := by
  rw [Alphabet.length_text, Numeral.length_digits]
  exact length_lowFirst_le hb num

theorem read_zeros {b : Nat} {hb16 : b ≤ 16} (hb : 1 < b) (n m : Nat) :
    (ascii b hb16).read (List.replicate n 48#8 ++ (ascii b hb16).text m) = some m :=
  Alphabet.read_zeros_text hb

theorem head?_zeros_text_ne {b : Nat} {hb16 : b ≤ 16} (hb : 1 < b) (n m : Nat) :
    (List.replicate n 48#8 ++ (ascii b hb16).text m).head? ≠ some 45#8 := by
  intro hsign
  rcases List.mem_append.mp (List.mem_of_mem_head? hsign) with hzero | hdigit
  · exact absurd (List.eq_of_mem_replicate hzero) (by decide)
  · exact (ne_of_mem_text hb _ hdigit).2 rfl

/-- A number without a sign reads back, behind any zeros. -/
theorem readNumeral_zeros (n : Nat) {base : Byte} {num : Word}
    (h : ¬ (num.slt 0#32 ∧ base = 100#8)) :
    readNumeral base (List.replicate n 48#8 ++ itoaText base num) =
      some (itoaValue base num) := by
  have hdecimal : decimal.read (List.replicate n 48#8 ++ decimal.text num.toNat) = some num.toNat :=
    read_zeros (by decide) n num.toNat
  have hhex : hex.read (List.replicate n 48#8 ++ hex.text num.toNat) = some num.toNat :=
    read_zeros (by decide) n num.toNat
  rw [itoaText, if_neg h]
  by_cases hd : base = 100#8
  · have hx : base ≠ 120#8 := by
      rw [hd]
      decide
    have hhead : (List.replicate n 48#8 ++ decimal.text num.toNat).head? ≠ some 45#8 :=
      head?_zeros_text_ne (by decide) n num.toNat
    have hvalue : num.toInt = num.toNat := toInt_of_not_slt fun hneg ↦ h ⟨hneg, hd⟩
    rw [if_neg hx, readNumeral, if_pos hd, if_neg hhead, hdecimal, itoaValue, if_pos hd, hvalue]
    rfl
  · rw [readNumeral, if_neg hd, itoaValue, if_neg hd]
    by_cases hx : base = 120#8
    · rw [if_pos hx, if_pos hx, hhex]
      rfl
    · rw [if_neg hx, if_neg hx, hdecimal]
      rfl

/-- A numeral without a sign is canonical when it reads back. -/
theorem canonicalText_text {b : Nat} {hb16 : b ≤ 16} (hb : 10 ≤ b) {base : Byte} {num : Word}
    (hreads : readNumeral base ((ascii b hb16).text num.toNat) = some (itoaValue base num)) :
    CanonicalText base num ((ascii b hb16).text num.toNat) := by
  have hne := @ne_of_mem_text b hb16 (by omega) num.toNat
  constructor
  · exact fun h ↦ (hne _ h).1 rfl
  · have hlen := @length_text_le b hb16 hb num
    omega
  · exact fun h ↦ absurd rfl (hne _ h).2
  · have hhead := @head?_zeros_text_ne b hb16 (by omega) 0 num.toNat
    rw [List.replicate_zero, List.nil_append] at hhead
    have hcanonical := @Alphabet.canonical_text Byte b (ascii b hb16) num.toNat (by omega)
    rw [if_neg hhead]
    exact hcanonical
  · exact hreads

theorem canonicalText_neg {num : Word} (h : num.slt 0#32) :
    CanonicalText 100#8 num (45#8 :: decimal.text (-num).toNat) := by
  have hne := @ne_of_mem_text 10 (by decide) (by decide) (-num).toNat
  constructor
  · rw [List.mem_cons, not_or]
    exact ⟨by decide, fun hmem ↦ (hne _ hmem).1 rfl⟩
  · have hlen := @length_text_le 10 (by decide) (by decide) (-num)
    rw [List.length_cons]
    exact Nat.succ_le_succ (Nat.succ_le_succ hlen)
  · exact fun _ ↦ ⟨rfl, BitVec.slt_iff_toInt_lt.mp h⟩
  · rw [List.head?_cons, if_pos rfl, List.tail_cons]
    exact Alphabet.canonical_text (by decide)
  · have hread : decimal.read (decimal.text (-num).toNat) = some (-num).toNat :=
      Alphabet.read_text (by decide)
    rw [readNumeral, if_pos rfl, List.head?_cons, if_pos rfl, List.tail_cons, hread, itoaValue,
      if_pos rfl, toInt_of_slt h]
    rfl

theorem canonicalText_itoaText (base : Byte) (num : Word) :
    CanonicalText base num (itoaText base num) := by
  rw [itoaText]
  by_cases hneg : num.slt 0#32 ∧ base = 100#8
  · rw [if_pos hneg, hneg.2]
    exact canonicalText_neg hneg.1
  · have hreads := readNumeral_zeros 0 hneg
    rw [List.replicate_zero, List.nil_append, itoaText, if_neg hneg] at hreads
    rw [if_neg hneg]
    by_cases hx : base = 120#8
    · rw [if_pos hx] at hreads ⊢
      exact canonicalText_text (by decide) hreads
    · rw [if_neg hx] at hreads ⊢
      exact canonicalText_text (by decide) hreads

/-- **`itoa` writes canonical numerals.** -/
theorem itoa_canonical (buf : Nat → Byte) (base : Byte) (num : Word) :
    ∃ fuel buf' text, itoa fuel buf base num = some buf' ∧
      CString.HoldsAt buf' 0 (text ++ [0#8]) ∧ CanonicalText base num text :=
  ⟨11, _, itoaText base num, itoa_eq le_rfl buf base num, CString.holdsAt_storeAt,
    canonicalText_itoaText base num⟩

end AphroditeOs
