import AphroditeOs.Print.Printk

/-!
# The end of a format (`lib/print.c`)

`printk_new` looks for the end of its format where a part begins, and takes the characters of a
conversion as they come.
-/

namespace AphroditeOs

open CString (HoldsAt)

/-- A call returns, and reads the format up to index `n`. -/
def ReadsInside (mem : Word → Byte) (format : Word) (args : Nat → Word) (buf : Nat → Byte)
    (n : Nat) : Prop :=
  ∃ fuel t, printkNew fuel mem format args buf = some t ∧ ∀ i ∈ t.reads, i ≤ n

/-- The start of a conversion that the format breaks off. -/
def BrokenConv (tail : List Byte) : Prop :=
  tail = [37#8] ∨ ∃ digit, isWidth digit ∧ tail = [37#8, digit]

/-! ## Whole parts -/

/-- The text is one of whole parts, up to a conversion that it may break off. -/
def Splits (text : List Byte) : Prop :=
  ∃ parts tail, text = spellAll parts ++ tail ∧ (tail = [] ∨ BrokenConv tail)

theorem splits_nil : Splits [] := ⟨[], [], rfl, Or.inl rfl⟩

theorem BrokenConv.splits {tail : List Byte} (h : BrokenConv tail) : Splits tail :=
  ⟨[], tail, rfl, Or.inr h⟩

theorem Splits.cons {text : List Byte} (part : FormatPart) (h : Splits text) :
    Splits (part.spell ++ text) := by
  obtain ⟨parts, tail, rfl, htail⟩ := h
  refine ⟨part :: parts, tail, ?_, htail⟩
  rw [spellAll_cons, List.append_assoc]

theorem splits (n : Nat) {text : List Byte} (hn : text.length ≤ n) (h : 0#8 ∉ text) :
    Splits text := by
  induction n generalizing text with
  | zero =>
    rw [List.length_eq_zero_iff.mp (Nat.le_zero.mp hn)]
    exact splits_nil
  | succ n ih =>
    cases text with
    | nil => exact splits_nil
    | cons c rest =>
      rw [List.length_cons] at hn
      rw [List.mem_cons, not_or] at h
      by_cases hc : c = 37#8
      · rw [hc]
        cases rest with
        | nil => exact BrokenConv.splits (Or.inl rfl)
        | cons d rest =>
          rw [List.length_cons] at hn
          rw [List.mem_cons, not_or] at h
          by_cases hd : isWidth d
          · cases rest with
            | nil => exact BrokenConv.splits (Or.inr ⟨d, hd, rfl⟩)
            | cons e rest =>
              rw [List.length_cons] at hn
              rw [List.mem_cons, not_or] at h
              exact (ih (by omega) h.2.2.2).cons (.wideConv d e hd (Ne.symm h.2.2.1))
          · exact (ih (by omega) h.2.2).cons (.conv d ⟨Ne.symm h.2.1, hd⟩)
      · exact (ih (by omega) h.2).cons (.plain c ⟨Ne.symm h.1, hc⟩)

/-! ## The reads of a run -/

namespace PrintState

variable {mem : Word → Byte} {text : Nat → Byte} {args : Nat → Word} {s t : PrintState}

/-- A conversion that is broken off takes the end of the format with it. -/
theorem pass_broken (hnul : ∃ a, mem a = 0#8) {tail : List Byte} (htail : BrokenConv tail)
    (h : HoldsAt text s.format (tail ++ [0#8])) :
    ∃ t, s.pass mem text args = some (true, t) ∧ t.format = s.format + tail.length + 1 := by
  rcases htail with rfl | ⟨digit, hdigit, rfl⟩
  · obtain ⟨buf, hconvert⟩ := @convert_eq mem args (s.skip 2) hnul 0#8
    exact ⟨_, by rw [pass_conv h (by decide), hconvert, Option.map_some], rfl⟩
  · obtain ⟨buf, hconvert⟩ := @convert_eq mem args
      (({ s with bit := (digit - 48#8).toNat } : PrintState).skip 3) hnul 0#8
    exact ⟨_, by rw [pass_wideConv h hdigit, hconvert, Option.map_some], rfl⟩

theorem takeWidth_reads (c : Byte) : s.reads <+: (s.takeWidth text c).2.reads := by
  rw [takeWidth]
  by_cases hc : isWidth c
  · rw [if_pos hc]
    exact List.prefix_append _ _
  · rw [if_neg hc]

theorem pass_reads (hnul : ∃ a, mem a = 0#8) {r : Bool × PrintState}
    (h : s.pass mem text args = some r) : s.reads ++ [s.format] <+: r.2.reads := by
  rw [pass] at h
  dsimp only at h
  by_cases hend : (s.fetch text).1 = 0#8
  · rw [if_pos hend] at h
    rw [← Option.some.inj h]
    exact List.prefix_refl _
  · rw [if_neg hend] at h
    by_cases hplain : (s.fetch text).1 ≠ 37#8
    · rw [if_pos hplain] at h
      rw [← Option.some.inj h]
      exact List.prefix_refl _
    · rw [if_neg hplain] at h
      have hwidth := @takeWidth_reads text ((s.fetch text).2.fetch text).2
        ((s.fetch text).2.fetch text).1
      generalize ((s.fetch text).2.fetch text).2.takeWidth text
        ((s.fetch text).2.fetch text).1 = conv at h hwidth
      obtain ⟨buf, hconvert⟩ := @convert_eq mem args conv.2 hnul conv.1
      rw [hconvert, Option.map_some] at h
      rw [← Option.some.inj h]
      exact (List.prefix_append (s.reads ++ [s.format]) _).trans hwidth

/-- A run that returns has read where it began. -/
theorem loop_reads (hnul : ∃ a, mem a = 0#8) {fuel : Nat}
    (h : loop mem text args fuel s = some t) : s.reads ++ [s.format] <+: t.reads := by
  induction fuel generalizing s with
  | zero => exact absurd h (by simp [loop])
  | succ fuel ih =>
    rw [loop] at h
    cases hpass : s.pass mem text args with
    | none => exact absurd h (by simp [hpass])
    | some r =>
      have hreads := pass_reads hnul hpass
      rw [hpass, Option.bind_some] at h
      by_cases hgo : r.1
      · rw [if_pos hgo] at h
        exact hreads.trans ((List.prefix_append _ _).trans (ih h))
      · rw [if_neg hgo] at h
        rwa [← Option.some.inj h]

end PrintState

section

variable {mem : Word → Byte} {format : Word} {args : Nat → Word} {buf : Nat → Byte}

/-- Behind a conversion that is broken off the next part is looked for. -/
theorem not_readsInside_of_broken {parts : List FormatPart} {tail : List Byte}
    (h : HoldsFormat mem format (spellAll parts ++ tail)) (htail : BrokenConv tail) :
    ¬ ReadsInside mem format args buf (spellAll parts ++ tail).length := by
  intro ⟨fuel, t, hcall, hinside⟩
  have hheld := h.2
  rw [List.append_assoc, CString.holdsAt_append] at hheld
  obtain ⟨u, hloop, hprinted⟩ := @PrintState.loop_parts mem (bytesAt mem format) args (.start buf)
    h.exists_null parts hheld.1
  obtain ⟨v, hpass, hformat⟩ := @PrintState.pass_broken mem (bytesAt mem format) args u
    h.exists_null tail htail (by rw [hprinted.format]; exact hheld.2)
  have hrest := PrintState.loop_mono hcall (parts.length + 1)
  rw [show fuel + (parts.length + 1) = parts.length + (fuel + 1) by omega, hloop,
    PrintState.loop, hpass, Option.bind_some, if_pos rfl] at hrest
  have hread := (PrintState.loop_reads h.exists_null hrest).subset
    (List.mem_append_right _ (List.mem_singleton_self v.format))
  have hle := hinside v.format hread
  rw [hformat, hprinted.format, List.length_append] at hle
  omega

end

/-- **A call stays inside its format exactly when no conversion is broken off.** -/
theorem readsInside_iff {mem : Word → Byte} {format : Word} {text : List Byte}
    (h : HoldsFormat mem format text) (args : Nat → Word) (buf : Nat → Byte) :
    ReadsInside mem format args buf text.length ↔ ∃ parts, spellAll parts = text := by
  constructor
  · intro hinside
    obtain ⟨parts, tail, rfl, rfl | hbroken⟩ := splits text.length le_rfl h.1
    · exact ⟨parts, (List.append_nil _).symm⟩
    · exact absurd hinside (not_readsInside_of_broken h hbroken)
  · rintro ⟨parts, rfl⟩
    obtain ⟨t, hcall, -, hreads⟩ := @printkNew_eq mem format args buf parts h
    refine ⟨_, t, hcall, fun i hi ↦ ?_⟩
    rw [hreads, List.mem_range'_1] at hi
    omega

/-- A string of one character at address `0x1000`, in memory that is zero elsewhere. -/
def charFormat (c : Byte) : Word → Byte := fun a ↦ if a = 0x1000#32 then c else 0#8

theorem holdsFormat_charFormat {c : Byte} (hc : c ≠ 0#8) :
    HoldsFormat (charFormat c) 0x1000#32 [c] :=
  ⟨by simpa using hc.symm, rfl, rfl, trivial⟩

/-- `"A%5x%d"` at address `0x1000`, in memory that is zero elsewhere. -/
def mixedFormat : Word → Byte :=
  fun a ↦ [65#8, 37#8, 53#8, 120#8, 37#8, 100#8].getD (a - 0x1000#32).toNat 0#8

/-- `printk_new("A%5x%d", 0, 0)` -/
theorem readsInside_conversions : ReadsInside mixedFormat 0x1000#32 (fun _ ↦ 0#32) (fun _ ↦ 0#8)
    [65#8, 37#8, 53#8, 120#8, 37#8, 100#8].length := by
  have hformat : HoldsFormat mixedFormat 0x1000#32 [65#8, 37#8, 53#8, 120#8, 37#8, 100#8] :=
    ⟨by decide, by decide, by decide, by decide, by decide, by decide, by decide, by decide, trivial⟩
  exact (readsInside_iff hformat _ _).mpr ⟨[.plain 65#8 (by decide),
    .wideConv 53#8 120#8 (by decide) (by decide), .conv 100#8 (by decide)], rfl⟩

/-- `printk_new("%")` -/
theorem not_forall_readsInside :
    ¬ ∀ mem format text, HoldsFormat mem format text → ∀ args buf,
      ReadsInside mem format args buf text.length := by
  intro h
  have hformat : HoldsFormat (charFormat 37#8) 0x1000#32 (spellAll [] ++ [37#8]) :=
    holdsFormat_charFormat (by decide)
  exact not_readsInside_of_broken hformat (Or.inl rfl)
    (h _ _ _ hformat (fun _ ↦ 0#32) (fun _ ↦ 0#8))

end AphroditeOs
