import AphroditeOs.Print.Itoa

/-!
# Formatted output (`lib/print.c`)

`printk_new` as the characters that it sends to `putchar`.  The format and the strings lie in
memory, which printing leaves as it is; the cursor in the format is an index from its start, and the
arguments are the words on the stack above the format.
-/

namespace AphroditeOs

open CString (HoldsAt upTo)

/-- The bytes from an address on. -/
def bytesAt (mem : Word → Byte) (a : Word) (i : Nat) : Byte := mem (a + BitVec.ofNat 32 i)

/-- As many passes as there are addresses. -/
def loopFuel : Nat := 2 ^ 32

/-- `scasb` from `edi` on. -/
def strlen : Nat → (Nat → Byte) → Nat → Nat → Option Nat
  | 0, _, _, _ => none
  | fuel + 1, str, edi, ilen => if str edi = 0#8 then some ilen else strlen fuel str (edi + 1) (ilen + 1)

structure PrintState where
  format : Nat
  multiChar : Nat
  bit : Nat
  buf : Nat → Byte
  -- what has been sent to `putchar`
  output : List Byte
  -- the indices of the format that have been read
  reads : List Nat

/-- The digits `'1'` to `'9'`. -/
def isWidth (c : Byte) : Prop := 49#8 ≤ c ∧ c ≤ 57#8

instance : DecidablePred isWidth := fun _ ↦ inferInstanceAs (Decidable (_ ∧ _))

/-- The letters `'d'`, `'x'` and `'u'`. -/
def isNumber (c : Byte) : Prop := c = 100#8 ∨ c = 120#8 ∨ c = 117#8

instance : DecidablePred isNumber := fun _ ↦ inferInstanceAs (Decidable (_ ∨ _ ∨ _))

/-- `"NULL"` -/
def nullText : List Byte := [78#8, 85#8, 76#8, 76#8]

namespace PrintState

/-- The local variables, with whatever `buf` holds. -/
def start (buf : Nat → Byte) : PrintState :=
  { format := 0, multiChar := 0, bit := 8, buf := buf, output := [], reads := [] }

/-- `*format++` -/
def fetch (text : Nat → Byte) (s : PrintState) : Byte × PrintState :=
  (text s.format, { s with format := s.format + 1, reads := s.reads ++ [s.format] })

/-- `putchar` of each character. -/
def emit (cs : List Byte) (s : PrintState) : PrintState := { s with output := s.output ++ cs }

/-- `DISP_STRING`: `fill` zeros and the string at `p1`. -/
def dispString (fill : Nat) (p1 : Nat → Byte) (s : PrintState) : Option PrintState :=
  (upTo 0#8 p1 loopFuel 0).map fun cs ↦ s.emit (List.replicate fill 48#8 ++ cs)

/-- `DISP_NUM` -/
def dispNum (args : Nat → Word) (c : Byte) (s : PrintState) : Option PrintState :=
  (itoa loopFuel s.buf c (args s.multiChar)).bind fun buf ↦
    (strlen loopFuel buf 0 0).bind fun strLen ↦
      dispString (if strLen < s.bit then s.bit - strLen else 0) buf
        { s with multiChar := s.multiChar + 1, buf := buf }

/-- `case 's'` -/
def dispArg (mem : Word → Byte) (args : Nat → Word) (s : PrintState) : Option PrintState :=
  let p1 := args s.multiChar
  dispString 0 (if p1 = 0#32 then fun i ↦ nullText.getD i 0#8 else bytesAt mem p1)
    { s with multiChar := s.multiChar + 1 }

/-- The second `switch`. -/
def convert (mem : Word → Byte) (args : Nat → Word) (c : Byte) (s : PrintState) :
    Option PrintState :=
  if isNumber c then s.dispNum args c
  else if c = 115#8 then s.dispArg mem args
  else some { s with multiChar := s.multiChar + 1 }

/-- The first `switch`, which takes a width digit. -/
def takeWidth (text : Nat → Byte) (c : Byte) (s : PrintState) : Byte × PrintState :=
  if isWidth c then fetch text { s with bit := (c - 48#8).toNat } else (c, s)

/-- A pass of the loop, and whether there is another one. -/
def pass (mem : Word → Byte) (text : Nat → Byte) (args : Nat → Word) (s : PrintState) :
    Option (Bool × PrintState) :=
  let first := s.fetch text
  if first.1 = 0#8 then some (false, first.2)
  else if first.1 ≠ 37#8 then some (true, first.2.emit [first.1])
  else
    let second := first.2.fetch text
    let conv := second.2.takeWidth text second.1
    (conv.2.convert mem args conv.1).map fun s ↦ (true, s)

def loop (mem : Word → Byte) (text : Nat → Byte) (args : Nat → Word) :
    Nat → PrintState → Option PrintState
  | 0, _ => none
  | fuel + 1, s => (s.pass mem text args).bind fun r ↦
    if r.1 then loop mem text args fuel r.2 else some r.2

end PrintState

/-- A call; `none` when the fuel runs out.  The format, the strings and the arguments lie apart from
the video memory, to which `putchar` writes. -/
def printkNew (fuel : Nat) (mem : Word → Byte) (format : Word) (args : Nat → Word)
    (buf : Nat → Byte) : Option PrintState :=
  PrintState.loop mem (bytesAt mem format) args fuel (.start buf)

/-! ## Formats -/

/-- A part of a format: a character as it is, or a complete conversion. -/
inductive FormatPart where
  | plain (c : Byte) (hc : c ≠ 0#8 ∧ c ≠ 37#8)
  | conv (c : Byte) (hc : c ≠ 0#8 ∧ ¬ isWidth c)
  | wideConv (digit c : Byte) (hdigit : isWidth digit) (hc : c ≠ 0#8)

namespace FormatPart

def spell : FormatPart → List Byte
  | plain c _ => [c]
  | conv c _ => [37#8, c]
  | wideConv digit c _ _ => [37#8, digit, c]

/-- How many arguments it takes. -/
def arity : FormatPart → Nat
  | plain _ _ => 0
  | conv _ _ => 1
  | wideConv _ _ _ _ => 1

/-- The width from it on. -/
def width (w : Nat) : FormatPart → Nat
  | plain _ _ => w
  | conv _ _ => w
  | wideConv digit _ _ _ => (digit - 48#8).toNat

end FormatPart

def spellAll (parts : List FormatPart) : List Byte := parts.flatMap FormatPart.spell

def arityAll (parts : List FormatPart) : Nat := (parts.map FormatPart.arity).sum

/-- The last width digit, or the width before. -/
def lastWidth (w : Nat) (parts : List FormatPart) : Nat := parts.foldl FormatPart.width w

/-- The string that `%s` prints. -/
def stringText (mem : Word → Byte) (p1 : Word) : List Byte :=
  if p1 = 0#32 then nullText else (upTo 0#8 (bytesAt mem p1) loopFuel 0).getD []

/-- What a conversion prints: a number has zeros up to the width. -/
def convText (mem : Word → Byte) (w : Nat) (c : Byte) (arg : Word) : List Byte :=
  if isNumber c then List.replicate (w - (itoaText c arg).length) 48#8 ++ itoaText c arg
  else if c = 115#8 then stringText mem arg
  else []

def FormatPart.text (mem : Word → Byte) (w : Nat) (args : Nat → Word) : FormatPart → List Byte
  | plain c _ => [c]
  | conv c _ => convText mem w c (args 0)
  | wideConv _ c _ _ => convText mem w c (args 0)

/-- What the parts of a format print, from a width on. -/
def render (mem : Word → Byte) : Nat → (Nat → Word) → List FormatPart → List Byte
  | _, _, [] => []
  | w, args, part :: parts =>
    part.text mem (part.width w) args ++
      render mem (part.width w) (fun i ↦ args (part.arity + i)) parts

/-! ## Formats appended -/

theorem spellAll_cons (part : FormatPart) (parts : List FormatPart) :
    spellAll (part :: parts) = part.spell ++ spellAll parts := List.flatMap_cons

theorem spellAll_append (f g : List FormatPart) : spellAll (f ++ g) = spellAll f ++ spellAll g :=
  List.flatMap_append

theorem arityAll_append (f g : List FormatPart) : arityAll (f ++ g) = arityAll f + arityAll g := by
  rw [arityAll, List.map_append, List.sum_append]
  rfl

theorem lastWidth_append (w : Nat) (f g : List FormatPart) :
    lastWidth w (f ++ g) = lastWidth (lastWidth w f) g := List.foldl_append

/-- The second format is printed from the width on that the first one leaves. -/
theorem render_append (mem : Word → Byte) (w : Nat) (args : Nat → Word) (f g : List FormatPart) :
    render mem w args (f ++ g) =
      render mem w args f ++ render mem (lastWidth w f) (fun i ↦ args (arityAll f + i)) g := by
  induction f generalizing w args with
  | nil => simp [render, lastWidth, arityAll]
  | cons part f ih =>
    rw [List.cons_append, render, ih, render, List.append_assoc]
    have hshift : ∀ i, args (part.arity + (arityAll f + i)) = args (arityAll (part :: f) + i) := by
      intro i
      rw [arityAll, arityAll, List.map_cons, List.sum_cons, Nat.add_assoc]
    simp only [hshift]
    rfl

/-! ## Conversions -/

theorem strlen_eq {str : Nat → Byte} {fuel edi ilen : Nat} {l : List Byte}
    (h : HoldsAt str edi (l ++ [0#8])) (hl : 0#8 ∉ l) (hfuel : l.length < fuel) :
    strlen fuel str edi ilen = some (ilen + l.length) := by
  induction fuel generalizing edi ilen l with
  | zero => omega
  | succ fuel ih =>
    rw [strlen]
    cases l with
    | nil =>
      rw [if_pos h.1]
      rfl
    | cons c l =>
      rw [List.mem_cons, not_or] at hl
      rw [h.1, if_neg (Ne.symm hl.1), ih h.2 hl.2 (Nat.lt_of_succ_lt_succ hfuel), List.length_cons,
        Nat.add_assoc, Nat.add_comm 1]

namespace PrintState

variable {mem : Word → Byte} {text : Nat → Byte} {args : Nat → Word} {s t u : PrintState}

theorem dispNum_eq (c : Byte) :
    s.dispNum args c = some
      { s with
        multiChar := s.multiChar + 1
        buf := CString.storeAt s.buf 0 (itoaText c (args s.multiChar) ++ [0#8])
        output := s.output ++ (List.replicate (s.bit - (itoaText c (args s.multiChar)).length) 48#8 ++
          itoaText c (args s.multiChar)) } := by
  have htext := canonicalText_itoaText c (args s.multiChar)
  have hlen := htext.length
  have hheld := @CString.holdsAt_storeAt _ s.buf 0 (itoaText c (args s.multiChar) ++ [0#8])
  have hfuel : (itoaText c (args s.multiChar)).length < loopFuel :=
    Nat.lt_of_lt_of_le (show _ < 12 by omega) (by decide)
  rw [dispNum, itoa_eq (by decide), Option.bind_some, strlen_eq hheld htext.ends hfuel,
    Option.bind_some, dispString, CString.upTo_eq hheld htext.ends hfuel]
  have hfill : (if 0 + (itoaText c (args s.multiChar)).length < s.bit then
      s.bit - (0 + (itoaText c (args s.multiChar)).length) else 0) =
      s.bit - (itoaText c (args s.multiChar)).length := by
    split <;> omega
  rw [hfill]
  rfl

/-- A string in memory ends where a null byte is. -/
theorem upTo_bytesAt (hnul : ∃ a, mem a = 0#8) (p1 : Word) :
    ∃ cs, upTo 0#8 (bytesAt mem p1) loopFuel 0 = some cs := by
  obtain ⟨a, ha⟩ := hnul
  apply @CString.upTo_isSome _ (bytesAt mem p1) 0 (a - p1).toNat 0#8
  · rw [bytesAt, BitVec.ofNat_toNat, BitVec.setWidth_eq, BitVec.add_comm, BitVec.sub_add_cancel, ha]
  · exact Nat.zero_le _
  · rw [Nat.zero_add]
    exact (a - p1).isLt

theorem dispArg_eq (hnul : ∃ a, mem a = 0#8) :
    s.dispArg mem args = some
      { s with
        multiChar := s.multiChar + 1
        output := s.output ++ stringText mem (args s.multiChar) } := by
  rw [dispArg]
  by_cases hnull : args s.multiChar = 0#32
  · have hheld : HoldsAt (fun i ↦ nullText.getD i 0#8) 0 (nullText ++ [0#8]) := by
      simp [HoldsAt, nullText]
    rw [if_pos hnull, dispString, CString.upTo_eq hheld (by decide) (by decide), stringText,
      if_pos hnull]
    rfl
  · obtain ⟨cs, hcs⟩ := upTo_bytesAt hnul (args s.multiChar)
    rw [if_neg hnull, dispString, hcs, stringText, if_neg hnull, hcs]
    rfl

/-- A conversion prints its text and takes its argument. -/
theorem convert_eq (hnul : ∃ a, mem a = 0#8) (c : Byte) :
    ∃ buf, s.convert mem args c = some
      { s with
        multiChar := s.multiChar + 1
        buf := buf
        output := s.output ++ convText mem s.bit c (args s.multiChar) } := by
  rw [convert, convText]
  by_cases hnumber : isNumber c
  · rw [if_pos hnumber, if_pos hnumber, dispNum_eq]
    exact ⟨_, rfl⟩
  · rw [if_neg hnumber, if_neg hnumber]
    by_cases hs : c = 115#8
    · rw [if_pos hs, if_pos hs, dispArg_eq hnul]
      exact ⟨_, rfl⟩
    · rw [if_neg hs, if_neg hs, List.append_nil]
      exact ⟨_, rfl⟩

/-! ## Passes -/

/-- From `s` to `t` the parts of a format have been printed. -/
structure Printed (mem : Word → Byte) (args : Nat → Word) (parts : List FormatPart)
    (s t : PrintState) : Prop where
  format : t.format = s.format + (spellAll parts).length
  multiChar : t.multiChar = s.multiChar + arityAll parts
  bit : t.bit = lastWidth s.bit parts
  output : t.output = s.output ++ render mem s.bit (fun i ↦ args (s.multiChar + i)) parts
  reads : t.reads = s.reads ++ List.range' s.format (spellAll parts).length

/-- The state after `n` characters of the format have been read. -/
def skip (n : Nat) (s : PrintState) : PrintState :=
  { s with format := s.format + n, reads := s.reads ++ List.range' s.format n }

theorem fetch_eq {c : Byte} (h : text s.format = c) : s.fetch text = (c, s.skip 1) := by
  rw [fetch, h]
  rfl

theorem skip_skip (m n : Nat) : (s.skip m).skip n = s.skip (m + n) := by
  simp [skip, Nat.add_assoc, List.range'_append_1]

theorem pass_plain {c : Byte} (h : text s.format = c) (h0 : c ≠ 0#8) (hc : c ≠ 37#8) :
    s.pass mem text args = some (true, (s.skip 1).emit [c]) := by
  simp [pass, fetch_eq h, h0, hc]

theorem pass_conv {c : Byte} (h : HoldsAt text s.format [37#8, c]) (hc : ¬ isWidth c) :
    s.pass mem text args = ((s.skip 2).convert mem args c).map fun t ↦ (true, t) := by
  have hsecond : (s.skip 1).fetch text = (c, s.skip 2) := by
    rw [fetch_eq h.2.1, skip_skip]
  simp [pass, fetch_eq h.1, hsecond, takeWidth, hc]

theorem pass_wideConv {digit c : Byte} (h : HoldsAt text s.format [37#8, digit, c])
    (hdigit : isWidth digit) :
    s.pass mem text args =
      ((({ s with bit := (digit - 48#8).toNat } : PrintState).skip 3).convert mem args c).map
        fun t ↦ (true, t) := by
  have hsecond : (s.skip 1).fetch text = (digit, s.skip 2) := by
    rw [fetch_eq h.2.1, skip_skip]
  have hthird : ({ s.skip 2 with bit := (digit - 48#8).toNat } : PrintState).fetch text =
      (c, ({ s with bit := (digit - 48#8).toNat } : PrintState).skip 3) := by
    have hskip : ({ s.skip 2 with bit := (digit - 48#8).toNat } : PrintState) =
        ({ s with bit := (digit - 48#8).toNat } : PrintState).skip 2 := rfl
    rw [hskip, fetch_eq h.2.2.1, skip_skip]
  rw [pass, fetch_eq h.1]
  dsimp only
  rw [if_neg (show ¬ 37#8 = 0#8 by decide), if_neg (not_not.mpr rfl), hsecond]
  dsimp only
  rw [takeWidth, if_pos hdigit, hthird]

/-- A part of the format takes one pass. -/
theorem pass_part (hnul : ∃ a, mem a = 0#8) {part : FormatPart}
    (h : HoldsAt text s.format part.spell) :
    ∃ t, s.pass mem text args = some (true, t) ∧ Printed mem args [part] s t := by
  cases part with
  | plain c hc =>
    refine ⟨_, pass_plain h.1 hc.1 hc.2, ?_⟩
    constructor <;> rfl
  | conv c hc =>
    obtain ⟨buf, hconvert⟩ := @convert_eq mem args (s.skip 2) hnul c
    refine ⟨_, by rw [pass_conv h hc.2, hconvert, Option.map_some], ?_⟩
    constructor <;> simp [skip, spellAll, FormatPart.spell, arityAll, FormatPart.arity, lastWidth,
      FormatPart.width, render, FormatPart.text]
  | wideConv digit c hdigit hc =>
    obtain ⟨buf, hconvert⟩ := @convert_eq mem args
      (({ s with bit := (digit - 48#8).toNat } : PrintState).skip 3) hnul c
    refine ⟨_, by rw [pass_wideConv h hdigit, hconvert, Option.map_some], ?_⟩
    constructor <;> simp [skip, spellAll, FormatPart.spell, arityAll, FormatPart.arity, lastWidth,
      FormatPart.width, render, FormatPart.text]

/-! ## Runs -/

theorem Printed.trans {f g : List FormatPart} (hst : Printed mem args f s t)
    (htu : Printed mem args g t u) : Printed mem args (f ++ g) s u := by
  constructor
  · rw [htu.format, hst.format, spellAll_append, List.length_append, Nat.add_assoc]
  · rw [htu.multiChar, hst.multiChar, arityAll_append, Nat.add_assoc]
  · rw [htu.bit, hst.bit, lastWidth_append]
  · rw [htu.output, hst.output, hst.bit, hst.multiChar, render_append, List.append_assoc]
    simp only [Nat.add_assoc]
  · rw [htu.reads, hst.reads, hst.format, spellAll_append, List.length_append, List.append_assoc,
      List.range'_append_1]

/-- The parts of a format take one pass each. -/
theorem loop_parts (hnul : ∃ a, mem a = 0#8) {parts : List FormatPart}
    (h : HoldsAt text s.format (spellAll parts)) :
    ∃ t, (∀ k, loop mem text args (parts.length + k) s = loop mem text args k t) ∧
      Printed mem args parts s t := by
  induction parts generalizing s with
  | nil =>
    refine ⟨s, fun k ↦ by rw [List.length_nil, Nat.zero_add], ?_⟩
    constructor <;> simp [spellAll, arityAll, lastWidth, render]
  | cons part parts ih =>
    rw [spellAll_cons, CString.holdsAt_append] at h
    obtain ⟨t, hpass, hprinted⟩ := @pass_part mem text args s hnul part h.1
    have hformat : t.format = s.format + part.spell.length := by
      rw [hprinted.format, spellAll, List.flatMap_singleton]
    obtain ⟨u, hloop, hrest⟩ := @ih t (by rw [hformat]; exact h.2)
    refine ⟨u, fun k ↦ ?_, hprinted.trans hrest⟩
    rw [List.length_cons, show parts.length + 1 + k = parts.length + k + 1 by omega, loop, hpass,
      Option.bind_some, if_pos rfl, hloop]

theorem loop_end (h : text s.format = 0#8) (k : Nat) :
    loop mem text args (k + 1) s = some (s.skip 1) := by
  rw [loop, pass, fetch_eq h, if_pos rfl]
  rfl

/-- More fuel changes nothing. -/
theorem loop_mono {fuel : Nat} (h : loop mem text args fuel s = some t) (k : Nat) :
    loop mem text args (fuel + k) s = some t := by
  induction fuel generalizing s with
  | zero => exact absurd h (by simp [loop])
  | succ fuel ih =>
    rw [loop] at h
    rw [show fuel + 1 + k = fuel + k + 1 by omega, loop]
    cases hpass : s.pass mem text args with
    | none => exact absurd h (by simp [hpass])
    | some r =>
      rw [hpass, Option.bind_some] at h
      rw [Option.bind_some]
      by_cases hgo : r.1
      · rw [if_pos hgo] at h ⊢
        exact ih h
      · rw [if_neg hgo] at h ⊢
        exact h

end PrintState

section

variable {mem : Word → Byte} {format : Word} {args : Nat → Word} {buf : Nat → Byte}
  {parts : List FormatPart} {t : PrintState}

/-- The format in memory. -/
def HoldsFormat (mem : Word → Byte) (format : Word) (text : List Byte) : Prop :=
  0#8 ∉ text ∧ HoldsAt (bytesAt mem format) 0 (text ++ [0#8])

theorem HoldsFormat.exists_null {text : List Byte} (h : HoldsFormat mem format text) :
    ∃ a, mem a = 0#8 :=
  ⟨_, (CString.holdsAt_append.mp h.2).2.1⟩

/-- **A call prints the parts of its format** and reads it up to its end. -/
theorem printkNew_eq (h : HoldsFormat mem format (spellAll parts)) :
    ∃ t, printkNew (parts.length + 1) mem format args buf = some t ∧
      t.output = render mem 8 args parts ∧
      t.reads = List.range' 0 ((spellAll parts).length + 1) := by
  have hheld := CString.holdsAt_append.mp h.2
  obtain ⟨t, hloop, hprinted⟩ := @PrintState.loop_parts mem (bytesAt mem format) args (.start buf)
    h.exists_null parts hheld.1
  have hend : bytesAt mem format t.format = 0#8 := by
    rw [hprinted.format]
    exact hheld.2.1
  refine ⟨t.skip 1, (hloop 1).trans (PrintState.loop_end hend 0), ?_, ?_⟩
  · show t.output = _
    rw [hprinted.output]
    simp [PrintState.start]
  · show t.reads ++ List.range' t.format 1 = _
    rw [hprinted.reads, hprinted.format]
    exact List.range'_append_1

/-- A call that returns has printed the parts of its format. -/
theorem printkNew_output (h : HoldsFormat mem format (spellAll parts)) {fuel : Nat}
    (hcall : printkNew fuel mem format args buf = some t) :
    t.output = render mem 8 args parts := by
  obtain ⟨u, hu, houtput, -⟩ := @printkNew_eq mem format args buf parts h
  have hfirst := PrintState.loop_mono hcall (parts.length + 1)
  have hsecond := PrintState.loop_mono hu fuel
  rw [Nat.add_comm] at hsecond
  rw [Option.some.inj (hfirst.symm.trans hsecond), houtput]

end

end AphroditeOs
