import AphroditeOs.Print.Printk

/-!
# The width of numbers (`lib/print.c`)

`printk_new` fills a number up with zeros before its sign, and keeps a width digit for the
conversions after it.
-/

namespace AphroditeOs

open CString (HoldsAt)

/-! ## Zeros before a number -/

inductive NumberConv where
  | d
  | u
  | x
  deriving DecidableEq, Repr

def NumberConv.char : NumberConv → Byte
  | d => 100#8
  | u => 117#8
  | x => 120#8

theorem NumberConv.isNumber_char (k : NumberConv) : isNumber k.char := by
  cases k <;> decide

theorem NumberConv.char_ne (k : NumberConv) : k.char ≠ 0#8 ∧ ¬ isWidth k.char := by
  cases k <;> decide

abbrev WidthDigit := {digit : Byte // isWidth digit}

/-- A conversion of a number, with a width digit or without. -/
def numberPart (width : Option WidthDigit) (k : NumberConv) : FormatPart :=
  match width with
  | none => .conv k.char k.char_ne
  | some digit => .wideConv digit.1 k.char digit.2 k.char_ne.1

/-- The width that it asks for. -/
def numberWidth : Option WidthDigit → Nat
  | none => 8
  | some digit => (digit.1 - 48#8).toNat

/-- The text of a conversion denotes its argument and has the length that the width asks for. -/
def ReadsBack (mem : Word → Byte) (format : Word) (args : Nat → Word) (buf : Nat → Byte)
    (width : Option WidthDigit) (k : NumberConv) : Prop :=
  ∃ fuel t, printkNew fuel mem format args buf = some t ∧
    readNumeral k.char t.output = some (itoaValue k.char (args 0)) ∧
    t.output.length = max (numberWidth width) (itoaText k.char (args 0)).length

/-- A sign behind a zero is no numeral. -/
theorem readNumeral_zeros_sign {n : Nat} (hn : 0 < n) (text : List Byte) :
    readNumeral 100#8 (List.replicate n 48#8 ++ 45#8 :: text) = none := by
  obtain ⟨n, rfl⟩ := Nat.exists_eq_succ_of_ne_zero hn.ne'
  have hnone : decimal.read (List.replicate (n + 1) 48#8 ++ 45#8 :: text) = none :=
    Alphabet.read_eq_none (List.mem_append_right _ List.mem_cons_self) (by decide)
  rw [readNumeral, if_pos rfl, if_neg (by simp [List.replicate_succ]), hnone]
  rfl

theorem readNumeral_zeros_iff (n : Nat) (k : NumberConv) (num : Word) :
    readNumeral k.char (List.replicate n 48#8 ++ itoaText k.char num) =
        some (itoaValue k.char num) ↔ ¬ (k = .d ∧ num.slt 0#32 ∧ 0 < n) := by
  by_cases hneg : num.slt 0#32 ∧ k.char = 100#8
  · have hk : k = .d := by
      cases k with
      | d => rfl
      | u => exact absurd hneg.2 (by decide)
      | x => exact absurd hneg.2 (by decide)
    by_cases hn : 0 < n
    · apply iff_of_false
      · rw [itoaText, if_pos hneg, hneg.2, readNumeral_zeros_sign hn]
        simp
      · exact fun h ↦ h ⟨hk, hneg.1, hn⟩
    · apply iff_of_true
      · rw [Nat.eq_zero_of_not_pos hn, List.replicate_zero, List.nil_append]
        exact (canonicalText_itoaText k.char num).reads
      · exact fun h ↦ hn h.2.2
  · apply iff_of_true (readNumeral_zeros n hneg)
    rintro ⟨rfl, hslt, _⟩
    exact hneg ⟨hslt, rfl⟩

theorem render_numberPart (mem : Word → Byte) (args : Nat → Word) (width : Option WidthDigit)
    (k : NumberConv) :
    render mem 8 args [numberPart width k] =
      List.replicate (numberWidth width - (itoaText k.char (args 0)).length) 48#8 ++
        itoaText k.char (args 0) := by
  cases width with
  | none =>
    rw [numberPart, render, render, List.append_nil, FormatPart.text, convText,
      if_pos k.isNumber_char]
    rfl
  | some digit =>
    rw [numberPart, render, render, List.append_nil, FormatPart.text, convText,
      if_pos k.isNumber_char]
    rfl

/-- **A number reads back exactly when no zeros come before its sign.** -/
theorem readsBack_iff {mem : Word → Byte} {format : Word} {args : Nat → Word} {buf : Nat → Byte}
    {width : Option WidthDigit} {k : NumberConv}
    (h : HoldsFormat mem format (spellAll [numberPart width k])) :
    ReadsBack mem format args buf width k ↔
      ¬ (k = .d ∧ (args 0).toInt < 0 ∧
        (itoaText k.char (args 0)).length < numberWidth width) := by
  have hlength : (List.replicate (numberWidth width - (itoaText k.char (args 0)).length) 48#8 ++
      itoaText k.char (args 0)).length =
      max (numberWidth width) (itoaText k.char (args 0)).length := by
    rw [List.length_append, List.length_replicate]
    omega
  have hiff := readNumeral_zeros_iff (numberWidth width - (itoaText k.char (args 0)).length) k
    (args 0)
  rw [BitVec.slt_iff_toInt_lt, Nat.sub_pos_iff_lt] at hiff
  rw [show (0 : Int) = (0#32).toInt from rfl, ← hiff]
  constructor
  · intro ⟨fuel, t, hcall, hreads, _⟩
    rwa [printkNew_output h hcall, render_numberPart] at hreads
  · intro hreads
    obtain ⟨t, hcall, houtput, -⟩ := @printkNew_eq mem format args buf _ h
    rw [render_numberPart] at houtput
    refine ⟨_, t, hcall, ?_, ?_⟩
    · rw [houtput, hreads]
    · rw [houtput, hlength]

/-- `"%d"` at address `0x1000`, in memory that is zero elsewhere. -/
def numberFormat : Word → Byte := fun a ↦ [37#8, 100#8].getD (a - 0x1000#32).toNat 0#8

theorem holdsFormat_numberFormat :
    HoldsFormat numberFormat 0x1000#32 (spellAll [numberPart none .d]) :=
  ⟨by decide, by decide, by decide, by decide, trivial⟩

/-- `printk_new("%d", 5)` -/
theorem readsBack_five : ReadsBack numberFormat 0x1000#32 (fun _ ↦ 5#32) (fun _ ↦ 0#8) none .d :=
  (readsBack_iff holdsFormat_numberFormat).mpr fun h ↦ absurd h.2.1 (by decide)

/-- `printk_new("%d", -5)` prints "000000-5". -/
theorem not_forall_readsBack :
    ¬ ∀ mem format args buf width k, HoldsFormat mem format (spellAll [numberPart width k]) →
      ReadsBack mem format args buf width k := by
  intro h
  obtain ⟨fuel, t, hcall, hreads, -⟩ :=
    h numberFormat 0x1000#32 (fun _ ↦ -5#32) (fun _ ↦ 0#8) none .d holdsFormat_numberFormat
  rw [printkNew_output holdsFormat_numberFormat hcall, render_numberPart] at hreads
  exact (readNumeral_zeros_iff _ _ _).mp hreads ⟨rfl, by decide, by decide⟩

/-! ## Widths kept -/

/-- Up to the first width digit, the numbers are filled up alike from the widths `w` and `w'`. -/
def SameFill (w w' : Nat) : (Nat → Word) → List FormatPart → Prop
  | _, [] => True
  | args, .plain _ _ :: parts => SameFill w w' (fun i ↦ args (0 + i)) parts
  | args, .conv c _ :: parts =>
    (isNumber c → max w (itoaText c (args 0)).length = max w' (itoaText c (args 0)).length) ∧
      SameFill w w' (fun i ↦ args (1 + i)) parts
  | _, .wideConv _ _ _ _ :: _ => True

section

variable {mem : Word → Byte} {w w' : Nat} {args args' : Nat → Word} {c : Byte} {arg : Word}
  {parts : List FormatPart}

theorem length_convText_of_number (hc : isNumber c) :
    (convText mem w c arg).length = max w (itoaText c arg).length := by
  rw [convText, if_pos hc, List.length_append, List.length_replicate]
  omega

theorem convText_congr (h : isNumber c → max w (itoaText c arg).length =
    max w' (itoaText c arg).length) : convText mem w c arg = convText mem w' c arg := by
  rw [convText, convText]
  by_cases hc : isNumber c
  · have hmax := h hc
    rw [if_pos hc, if_pos hc, show w - (itoaText c arg).length = w' - (itoaText c arg).length by
      omega]
  · rw [if_neg hc, if_neg hc]

theorem convText_of_not_number (hc : ¬ isNumber c) :
    convText mem w c arg = convText mem w' c arg :=
  convText_congr fun h ↦ absurd h hc

theorem render_of_sameFill (h : SameFill w w' args parts) :
    render mem w args parts = render mem w' args parts := by
  induction parts generalizing args with
  | nil => rfl
  | cons part parts ih =>
    cases part with
    | plain c hc => exact congrArg (c :: ·) (ih h)
    | conv c hc =>
      have hrest := ih h.2
      rw [render, render]
      exact congrArg₂ (· ++ ·) (convText_congr h.1) hrest
    | wideConv digit c hdigit hc => rfl

theorem length_convText_le (h : w ≤ w') :
    (convText mem w c arg).length ≤ (convText mem w' c arg).length := by
  by_cases hc : isNumber c
  · rw [length_convText_of_number hc, length_convText_of_number hc]
    omega
  · rw [@convText_of_not_number mem w w' c arg hc]

/-- A greater width prints no less. -/
theorem length_render_le (h : w ≤ w') :
    (render mem w args parts).length ≤ (render mem w' args parts).length := by
  induction parts generalizing args with
  | nil => exact Nat.le_refl _
  | cons part parts ih =>
    cases part with
    | plain c hc => exact Nat.succ_le_succ ih
    | conv c hc =>
      rw [render, render, List.length_append, List.length_append]
      exact Nat.add_le_add (length_convText_le h) ih
    | wideConv digit c hdigit hc => exact Nat.le_refl _

/-- Where it prints as much, every number is filled up alike. -/
theorem sameFill_of_length_eq (h : w ≤ w')
    (hlen : (render mem w args parts).length = (render mem w' args parts).length) :
    SameFill w w' args parts := by
  induction parts generalizing args with
  | nil => trivial
  | cons part parts ih =>
    cases part with
    | plain c hc => exact ih (Nat.succ.inj hlen)
    | conv c hc =>
      rw [render, render, List.length_append, List.length_append] at hlen
      have hfirst := @length_convText_le mem w w' c (args 0) h
      have hrest := @length_render_le mem w w' (fun i ↦ args (1 + i)) parts h
      change (convText mem w c (args 0)).length + (render mem w (fun i ↦ args (1 + i)) parts).length =
        (convText mem w' c (args 0)).length +
          (render mem w' (fun i ↦ args (1 + i)) parts).length at hlen
      refine ⟨fun hnumber ↦ ?_, ih (by omega)⟩
      rw [length_convText_of_number hnumber, length_convText_of_number hnumber] at hfirst hlen
      omega
    | wideConv digit c hdigit hc => trivial

theorem SameFill.symm (h : SameFill w w' args parts) : SameFill w' w args parts := by
  induction parts generalizing args with
  | nil => trivial
  | cons part parts ih =>
    cases part with
    | plain c hc => exact ih h
    | conv c hc => exact ⟨fun hnumber ↦ (h.1 hnumber).symm, ih h.2⟩
    | wideConv digit c hdigit hc => trivial

theorem render_eq_iff : render mem w args parts = render mem w' args parts ↔
    SameFill w w' args parts := by
  refine ⟨fun h ↦ ?_, render_of_sameFill⟩
  have hlen := congrArg List.length h
  rcases Nat.le_total w w' with hle | hge
  · exact sameFill_of_length_eq hle hlen
  · exact (sameFill_of_length_eq hge hlen.symm).symm

/-- The arguments that a format does not take do not count. -/
theorem render_congr (h : ∀ i < arityAll parts, args i = args' i) :
    render mem w args parts = render mem w args' parts := by
  induction parts generalizing w args args' with
  | nil => rfl
  | cons part parts ih =>
    have harity : arityAll (part :: parts) = part.arity + arityAll parts := rfl
    have htext : ∀ v, part.text mem v args = part.text mem v args' := by
      intro v
      cases part with
      | plain c hc => rfl
      | conv c hc => exact congrArg (convText mem v c) (h 0 (by rw [harity]; exact Nat.add_pos_left Nat.one_pos _))
      | wideConv digit c hdigit hc =>
        exact congrArg (convText mem v c) (h 0 (by rw [harity]; exact Nat.add_pos_left Nat.one_pos _))
    rw [render, render, htext, ih fun i hi ↦ h (part.arity + i) (by omega)]

end

/-! ## Calls -/

/-- A call of `printk_new` with a format and the arguments that it takes. -/
structure PrintkCall (mem : Word → Byte) (parts : List FormatPart) (a : List Word) where
  format : Word
  args : Nat → Word
  buf : Nat → Byte
  holds : HoldsFormat mem format (spellAll parts)
  supplies : HoldsAt args 0 a
  arity : a.length = arityAll parts

namespace PrintkCall

variable {mem : Word → Byte} {f g : List FormatPart} {a b : List Word}

def run (call : PrintkCall mem f a) (fuel : Nat) : Option PrintState :=
  printkNew fuel mem call.format call.args call.buf

/-- The calls return, and the first one prints what the second and the third one do. -/
def Composes (call : PrintkCall mem (f ++ g) (a ++ b)) (first : PrintkCall mem f a)
    (second : PrintkCall mem g b) : Prop :=
  ∃ fuel t t₁ t₂, call.run fuel = some t ∧ first.run fuel = some t₁ ∧ second.run fuel = some t₂ ∧
    t.output = t₁.output ++ t₂.output

theorem render_append_args (h : a.length = arityAll f) (w : Nat) :
    render mem w (fun i ↦ (a ++ b).getD i 0#32) (f ++ g) =
      render mem w (fun i ↦ a.getD i 0#32) f ++
        render mem (lastWidth w f) (fun i ↦ b.getD i 0#32) g := by
  rw [render_append, ← h]
  congr 1
  · apply render_congr
    intro i hi
    rw [← h] at hi
    exact List.getD_append _ _ _ _ hi
  · have hshift : ∀ i, (a ++ b).getD (a.length + i) 0#32 = b.getD i 0#32 := by
      intro i
      rw [List.getD_append_right _ _ _ _ (Nat.le_add_right _ _), Nat.add_sub_cancel_left]
    simp only [hshift]

/-- What a call prints, by the list of its arguments. -/
theorem output_eq (call : PrintkCall mem f a) {fuel : Nat} {t : PrintState}
    (h : call.run fuel = some t) : t.output = render mem 8 (fun i ↦ a.getD i 0#32) f := by
  rw [printkNew_output call.holds h]
  apply render_congr
  intro i hi
  have harg := call.supplies.getD (by rw [call.arity]; exact hi) 0#32
  rwa [Nat.zero_add] at harg

theorem Composes.render_eq {call : PrintkCall mem (f ++ g) (a ++ b)} {first : PrintkCall mem f a}
    {second : PrintkCall mem g b} (h : call.Composes first second) :
    render mem (lastWidth 8 f) (fun i ↦ b.getD i 0#32) g =
      render mem 8 (fun i ↦ b.getD i 0#32) g := by
  obtain ⟨fuel, t, t₁, t₂, hcall, hfirst, hsecond, heq⟩ := h
  rw [call.output_eq hcall, first.output_eq hfirst, second.output_eq hsecond,
    render_append_args first.arity] at heq
  exact List.append_cancel_left heq

theorem exists_run (call : PrintkCall mem f a) :
    ∃ t, ∀ k, call.run (f.length + 1 + k) = some t := by
  obtain ⟨t, hcall, -⟩ := @printkNew_eq mem call.format call.args call.buf f call.holds
  exact ⟨t, PrintState.loop_mono hcall⟩

end PrintkCall

/-- **Formats compose exactly where the width kept does not show**: the numbers of the second format
that have no width digit are filled up alike from it and from the default. -/
theorem composes_iff {mem : Word → Byte} {f g : List FormatPart} {a b : List Word}
    (call : PrintkCall mem (f ++ g) (a ++ b)) (first : PrintkCall mem f a)
    (second : PrintkCall mem g b) :
    call.Composes first second ↔ SameFill (lastWidth 8 f) 8 (fun i ↦ b.getD i 0#32) g := by
  rw [← @render_eq_iff mem]
  constructor
  · exact fun h ↦ h.render_eq
  · intro heq
    obtain ⟨t, ht⟩ := call.exists_run
    obtain ⟨t₁, ht₁⟩ := first.exists_run
    obtain ⟨t₂, ht₂⟩ := second.exists_run
    have hfuel := ht 0
    have hfirst := ht₁ g.length
    have hsecond := ht₂ f.length
    rw [List.length_append, Nat.add_zero] at hfuel
    rw [show f.length + 1 + g.length = f.length + g.length + 1 by omega] at hfirst
    rw [show g.length + 1 + f.length = f.length + g.length + 1 by omega] at hsecond
    refine ⟨_, t, t₁, t₂, hfuel, hfirst, hsecond, ?_⟩
    rw [call.output_eq hfuel, first.output_eq hfirst, second.output_eq hsecond,
      PrintkCall.render_append_args first.arity, heq]

/-- `"%1d%d"` and, behind it, `"%1d"`. -/
def widthFormats : Word → Byte :=
  fun a ↦ [37#8, 49#8, 100#8, 37#8, 100#8, 0#8, 37#8, 49#8, 100#8].getD (a - 0x1000#32).toNat 0#8

def wideNumber : List FormatPart := [numberPart (some ⟨49#8, by decide⟩) .d]

def plainNumber : List FormatPart := [numberPart none .d]

def bothCall : PrintkCall widthFormats (wideNumber ++ plainNumber) ([5#32] ++ [5#32]) where
  format := 0x1000#32
  args := fun _ ↦ 5#32
  buf := fun _ ↦ 0#8
  holds := ⟨by decide, by decide, by decide, by decide, by decide, by decide, by decide, trivial⟩
  supplies := ⟨rfl, rfl, trivial⟩
  arity := rfl

def wideCall : PrintkCall widthFormats wideNumber [5#32] where
  format := 0x1006#32
  args := fun _ ↦ 5#32
  buf := fun _ ↦ 0#8
  holds := ⟨by decide, by decide, by decide, by decide, by decide, trivial⟩
  supplies := ⟨rfl, trivial⟩
  arity := rfl

def plainCall : PrintkCall widthFormats plainNumber [5#32] where
  format := 0x1003#32
  args := fun _ ↦ 5#32
  buf := fun _ ↦ 0#8
  holds := ⟨by decide, by decide, by decide, by decide, trivial⟩
  supplies := ⟨rfl, trivial⟩
  arity := rfl

def longBothCall : PrintkCall widthFormats (wideNumber ++ plainNumber)
    ([5#32] ++ [123456789#32]) where
  format := bothCall.format
  args := fun i ↦ [5#32, 123456789#32].getD i 0#32
  buf := bothCall.buf
  holds := bothCall.holds
  supplies := ⟨rfl, rfl, trivial⟩
  arity := rfl

def longCall : PrintkCall widthFormats plainNumber [123456789#32] where
  format := plainCall.format
  args := fun _ ↦ 123456789#32
  buf := plainCall.buf
  holds := plainCall.holds
  supplies := ⟨rfl, trivial⟩
  arity := rfl

/-- `printk_new("%1d%d", 5, 123456789)`: the second number is longer than either width. -/
theorem composes_longNumber : longBothCall.Composes wideCall longCall :=
  (composes_iff longBothCall wideCall longCall).mpr ⟨fun _ ↦ by decide, trivial⟩

/-- `printk_new("%1d%d", 5, 5)` prints "55". -/
theorem not_forall_composes :
    ¬ ∀ mem f g a b, ∀ call : PrintkCall mem (f ++ g) (a ++ b), ∀ first : PrintkCall mem f a,
      ∀ second : PrintkCall mem g b, call.Composes first second := by
  intro h
  have hfill := render_eq_iff.mp (h _ _ _ _ _ bothCall wideCall plainCall).render_eq
  exact absurd (hfill.1 (by decide)) (by decide)

end AphroditeOs
