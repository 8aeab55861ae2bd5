import AphroditeOs.Print.Console
import AphroditeOs.Print.Width
import AphroditeOs.Setup.Mbinfo

/-!
# The memory map on the screen (`init/kmain.cc`, `lib/print.c`)

`start_kernel` clears the screen, and `print_memory_map` lists the entries that it copies into
`e820`.  What it reads it finds in the memory that the console has written to; the arguments of a
call and `e820` itself are apart from that.
-/

namespace AphroditeOs

/-! ## The console -/

/-- What has been stored, in order, and the position. -/
structure Console where
  stores : List (Word × Byte)
  pos : ConsolePos

namespace Console

def cls (c : Console) : Console := ⟨c.stores ++ AphroditeOs.cls.1, AphroditeOs.cls.2⟩

def putchars (cs : List Byte) (c : Console) : Console :=
  ⟨c.stores ++ (AphroditeOs.putchars cs c.pos).1, (AphroditeOs.putchars cs c.pos).2⟩

/-- What has become of the memory. -/
def memory (mem : BitMemory) (c : Console) : BitMemory := storeBytes mem c.stores

/-- A call finds its strings in `mem`, which it does not write to before it has read them. -/
def printkNew (fuel : Nat) (mem : Word → Byte) (format : Word) (args : Nat → Word)
    (buf : Nat → Byte) (c : Console) : Option Console :=
  (AphroditeOs.printkNew fuel mem format args buf).map fun t ↦ c.putchars t.output

end Console

/-! ## The program -/

def chars (s : String) : List Byte := s.toList.map fun c ↦ BitVec.ofNat 8 c.toNat

/-- The addresses of the format strings. -/
structure MapTexts where
  invalid : Word
  title : Word
  heading : Word
  row : Word
  total : Word
  start : Word

def rowArgs (m : Mmap) : Nat → Word
  | 0 => m.addr.setWidth 32
  | 1 => (m.addr >>> 32).setWidth 32
  | 2 => m.limit.setWidth 32
  | 3 => (m.limit >>> 32).setWidth 32
  | _ => m.type

/-- The variables of the loop, and the console. -/
structure Listing where
  cursor : MapState
  memoryEnd : Word
  console : Console

/-- `(memory_end + 1024 * 1024 - 1) / 1024 / 1024`, of an `int`. -/
def megabytes (memoryEnd : Word) : Word :=
  ((memoryEnd + 0x100000#32 - 1#32).sdiv 1024#32).sdiv 1024#32

section

variable (fuel : Nat) (texts : MapTexts) (bufs : Nat → Nat → Byte) (pmb : Mbinfo) (mem : BitMemory)

def printkAt (format : Word) (args : Nat → Word) (call : Nat) (c : Console) : Option Console :=
  c.printkNew fuel (fun a ↦ (c.memory mem).byte a.toNat) format args (bufs call)

def listingPass (s : Listing) : Option Listing :=
  let m := mmapAt (s.console.memory mem) s.cursor.pMmap
  (printkAt fuel bufs mem texts.row (rowArgs m) (s.cursor.i + 3) s.console).map fun console ↦
    -- behind the call the entry is read once more
    let m' := mmapAt (console.memory mem) s.cursor.pMmap
    { cursor :=
        { pMmap := s.cursor.pMmap + 4#32 + m'.size
          i := s.cursor.i + 1
          map := Function.update s.cursor.map s.cursor.i m.e820 }
      memoryEnd := if m'.type = 1#32 then (m'.addr + m'.limit).setWidth 32 else s.memoryEnd
      console := console }

def listingLoop : Nat → Listing → Option Listing
  | 0, _ => none
  | n + 1, s =>
    if MapGoes pmb s.cursor then (listingPass fuel texts bufs mem s).bind (listingLoop n)
    else some s

/-- `print_memory_map`; `kernelEnd` is `&__end`.  The map, the structure that names it and the strings
lie apart from `e820`; that structure and the arguments of the calls lie apart from the video
memory. -/
def listMemoryMap (kernelEnd : Word) (map : Nat → E820Entry) (c : Console) :
    Option (E820Array × Console) :=
  (printkAt fuel bufs mem texts.title (fun _ ↦ 0#32) 1 c).bind fun c ↦
  (printkAt fuel bufs mem texts.heading (fun _ ↦ 0#32) 2 c).bind fun c ↦
  (listingLoop fuel texts bufs pmb mem fuel ⟨mapStart pmb map, 0#32, c⟩).bind fun s ↦
  (printkAt fuel bufs mem texts.total (fun _ ↦ megabytes s.memoryEnd) (s.cursor.i + 3)
    s.console).bind fun c ↦
  (printkAt fuel bufs mem texts.start (fun _ ↦ kernelEnd) (s.cursor.i + 4) c).map fun c ↦
    (⟨s.cursor.i, s.cursor.map⟩, c)

def magicNum : Word := 0x2BADB002#32

/-- `start_kernel` up to `setup_arch`. -/
def startListing (magic kernelEnd : Word) (map : Nat → E820Entry) (c : Console) :
    Option (E820Array × Console) :=
  (if magic ≠ magicNum then printkAt fuel bufs mem texts.invalid (fun _ ↦ 0#32) 0 c
    else some c).bind fun c ↦
  listMemoryMap fuel texts bufs pmb mem kernelEnd map c.cls

end

/-! ## The formats -/

/-- The parts of a text without conversions. -/
def plainParts (text : List Byte) : List FormatPart :=
  text.filterMap fun c ↦ if h : c ≠ 0#8 ∧ c ≠ 37#8 then some (.plain c h) else none

def newlinePart : FormatPart := .plain 10#8 (by decide)

def eight : Option WidthDigit := some ⟨56#8, by decide⟩

/-- `"Invalid kernel image.\n"` -/
def invalidFormat : List FormatPart := plainParts (chars "Invalid kernel image.") ++ [newlinePart]

def titleFormat : List FormatPart := plainParts (chars "System Address Map:") ++ [newlinePart]

def headingFormat : List FormatPart :=
  plainParts (chars "BaseL    BaseH    LimitL   LimitH   Type") ++ [newlinePart]

/-- `"%8x %8x %8x %8x %8d\n"` -/
def rowFormat : List FormatPart :=
  [numberPart eight .x, .plain 32#8 (by decide), numberPart eight .x, .plain 32#8 (by decide),
    numberPart eight .x, .plain 32#8 (by decide), numberPart eight .x, .plain 32#8 (by decide),
    numberPart eight .d, newlinePart]

def totalFormat : List FormatPart :=
  plainParts (chars "Total memory size: ") ++
    numberPart none .d :: (plainParts (chars " MB.") ++ [newlinePart])

def startFormat : List FormatPart :=
  plainParts (chars "memory start at 0x") ++
    numberPart eight .x :: (plainParts (chars ".") ++ [newlinePart])

/-- A format is in memory, outside of the video memory. -/
structure HoldsText (mem : BitMemory) (format : Word) (parts : List FormatPart) : Prop where
  holds : HoldsFormat (fun a ↦ mem.byte a.toNat) format (spellAll parts)
  apart : ∀ i ≤ (spellAll parts).length, (format + BitVec.ofNat 32 i).toNat ∉ videoMemory

/-- The strings are in memory. -/
structure MapTexts.Held (texts : MapTexts) (mem : BitMemory) : Prop where
  invalid : HoldsText mem texts.invalid invalidFormat
  title : HoldsText mem texts.title titleFormat
  heading : HoldsText mem texts.heading headingFormat
  row : HoldsText mem texts.row rowFormat
  total : HoldsText mem texts.total totalFormat
  start : HoldsText mem texts.start startFormat

/-- The map of the boot loader is outside of the video memory. -/
def Mbinfo.OffScreen (pmb : Mbinfo) : Prop :=
  ∀ a, pmb.mmapAddr.toNat ≤ a → a < pmb.mmapAddr.toNat + pmb.mmapLength.toNat → a ∉ videoMemory

-- A map in low memory.
theorem Mbinfo.offScreen_of_le {pmb : Mbinfo}
    (h : pmb.mmapAddr.toNat + pmb.mmapLength.toNat ≤ 0xB8000) : pmb.OffScreen := by
  intro a _ ha hin
  have hlow : 0xB8000 ≤ a := hin.1
  omega

/-- The position is one of the screen, and what has been stored is in the video memory. -/
structure Console.OnScreen (c : Console) : Prop where
  tracks : ∃ t : Screen, Tracks c.pos t
  inside : ∀ w ∈ c.stores, (w.1 - vedioAddr).toNat < 4000

/-! ## Reading the screen -/

/-- Characters of a row of the screen. -/
def shown (mem : Word → Byte) (row col n : Nat) : List Byte :=
  (List.range n).map fun j ↦ mem (vedioAddr + BitVec.ofNat 32 (2 * (columns * row + (col + j))))

/-- The entry that a row of the list shows: the five numbers are eight characters wide. -/
def shownEntry (mem : Word → Byte) (row : Nat) : Option E820Entry :=
  (readNumeral 120#8 (shown mem row 0 8)).bind fun addrLow ↦
  (readNumeral 120#8 (shown mem row 9 8)).bind fun addrHigh ↦
  (readNumeral 120#8 (shown mem row 18 8)).bind fun sizeLow ↦
  (readNumeral 120#8 (shown mem row 27 8)).bind fun sizeHigh ↦
  (readNumeral 100#8 (shown mem row 36 8)).map fun type ↦
    ⟨BitVec.ofInt 64 (2 ^ 32 * addrHigh + addrLow), BitVec.ofInt 64 (2 ^ 32 * sizeHigh + sizeLow),
      BitVec.ofInt 32 type⟩

/-! ## What the formats print -/

/-- A number with zeros up to the width 8. -/
def field (base : Byte) (num : Word) : List Byte :=
  List.replicate (8 - (itoaText base num).length) 48#8 ++ itoaText base num

def rowText (m : Mmap) : List Byte :=
  field 120#8 (rowArgs m 0) ++ 32#8 :: (field 120#8 (rowArgs m 1) ++ 32#8 ::
    (field 120#8 (rowArgs m 2) ++ 32#8 :: (field 120#8 (rowArgs m 3) ++ 32#8 ::
      field 100#8 (rowArgs m 4))))

/-- Neither control characters nor the sign of a conversion. -/
def printable (s : String) : Bool :=
  s.toList.all fun c ↦ decide (32 ≤ c.toNat) && decide (c.toNat < 127) && decide (c.toNat ≠ 37)

theorem chars_of_printable {s : String} (h : printable s = true) :
    ∀ c ∈ chars s, (c ≠ 0#8 ∧ c ≠ 37#8) ∧ ¬ isNewline c := by
  intro c hc
  obtain ⟨d, hd, rfl⟩ := List.mem_map.mp hc
  have hd := List.all_eq_true.mp h d hd
  rw [Bool.and_eq_true, Bool.and_eq_true, decide_eq_true_iff, decide_eq_true_iff,
    decide_eq_true_iff] at hd
  generalize d.toNat = n at hd
  have hcode : ∀ m < 256, BitVec.ofNat 8 n = BitVec.ofNat 8 m → n = m := by
    intro m hm heq
    have hnat := congrArg BitVec.toNat heq
    rwa [BitVec.toNat_ofNat, BitVec.toNat_ofNat, Nat.mod_eq_of_lt (by omega),
      Nat.mod_eq_of_lt (by omega)] at hnat
  refine ⟨⟨fun heq ↦ ?_, fun heq ↦ hd.2 (hcode 37 (by decide) heq)⟩, ?_⟩
  · have := hcode 0 (by decide) heq
    omega
  · rintro (heq | heq)
    · have := hcode 10 (by decide) heq
      omega
    · have := hcode 13 (by decide) heq
      omega

theorem render_plainParts (mem : Word → Byte) (w : Nat) (args : Nat → Word) {s : String}
    (h : printable s = true) (g : List FormatPart) :
    render mem w args (plainParts (chars s) ++ g) = chars s ++ render mem w args g := by
  have hargs : (fun i ↦ args (0 + i)) = args := funext fun i ↦ congrArg args (Nat.zero_add i)
  have hchars : ∀ c ∈ chars s, c ≠ 0#8 ∧ c ≠ 37#8 := fun c hc ↦ (chars_of_printable h c hc).1
  generalize chars s = text at hchars
  induction text with
  | nil => rfl
  | cons c text ih =>
    rw [List.forall_mem_cons] at hchars
    have hparts : plainParts (c :: text) = .plain c hchars.1 :: plainParts text := by
      rw [plainParts, List.filterMap_cons, dif_pos hchars.1]
      rfl
    rw [hparts, List.cons_append, render]
    show c :: render mem w (fun i ↦ args (0 + i)) (plainParts text ++ g) = _
    rw [hargs, ih hchars.2]
    rfl

theorem length_plainParts_le (s : String) : (plainParts (chars s)).length ≤ s.toList.length :=
  (List.length_filterMap_le _ _).trans_eq (List.length_map _)

theorem render_line (mem : Word → Byte) (args : Nat → Word) {s : String} (h : printable s = true) :
    render mem 8 args (plainParts (chars s) ++ [newlinePart]) = chars s ++ [10#8] :=
  render_plainParts mem 8 args h _

theorem render_rowFormat (mem : Word → Byte) (m : Mmap) :
    render mem 8 (rowArgs m) rowFormat = rowText m ++ [10#8] := by
  simp [rowFormat, newlinePart, numberPart, eight, render, FormatPart.text, convText, isNumber,
    FormatPart.width, FormatPart.arity, NumberConv.char, rowText, field, rowArgs]

theorem render_totalFormat (mem : Word → Byte) (args : Nat → Word) :
    render mem 8 args totalFormat =
      (chars "Total memory size: " ++ field 100#8 (args 0) ++ chars " MB.") ++ [10#8] := by
  rw [totalFormat, render_plainParts mem 8 args (by decide +kernel), render]
  refine (congrArg (fun text ↦ chars _ ++ (FormatPart.text mem 8 args _ ++ text))
    (render_line mem _ (s := " MB.") (by decide +kernel))).trans ?_
  simp [numberPart, FormatPart.text, convText, isNumber, NumberConv.char, field]

theorem render_startFormat (mem : Word → Byte) (args : Nat → Word) :
    render mem 8 args startFormat =
      (chars "memory start at 0x" ++ field 120#8 (args 0) ++ chars ".") ++ [10#8] := by
  rw [startFormat, render_plainParts mem 8 args (by decide +kernel), render]
  refine (congrArg (fun text ↦ chars _ ++ (FormatPart.text mem 8 args _ ++ text))
    (render_line mem _ (s := ".") (by decide +kernel))).trans ?_
  simp [numberPart, eight, FormatPart.text, convText, isNumber, NumberConv.char, field]

/-! ## Calls -/

theorem putchars_append (cs ds : List Byte) (s : ConsolePos) :
    putchars (cs ++ ds) s =
      ((putchars cs s).1 ++ (putchars ds (putchars cs s).2).1, (putchars ds (putchars cs s).2).2) := by
  induction cs generalizing s with
  | nil => rfl
  | cons c cs ih =>
    rw [List.cons_append, putchars, putchars, ih]
    simp only [List.append_assoc]

theorem Console.putchars_putchars (cs ds : List Byte) (c : Console) :
    (c.putchars cs).putchars ds = c.putchars (cs ++ ds) := by
  unfold Console.putchars
  rw [putchars_append, List.append_assoc]

section

variable {fuel : Nat} {texts : MapTexts} {bufs : Nat → Nat → Byte} {pmb : Mbinfo} {mem : BitMemory}
  {c : Console}

theorem Console.OnScreen.putchars (h : c.OnScreen) (cs : List Byte) : (c.putchars cs).OnScreen := by
  obtain ⟨t, ht⟩ := h.tracks
  obtain ⟨htracks, hinside⟩ := ht.putchars cs
  exact ⟨⟨_, htracks⟩, List.forall_mem_append.mpr ⟨h.inside, hinside⟩⟩

theorem Console.OnScreen.cls (h : c.OnScreen) : c.cls.OnScreen :=
  ⟨⟨.blank, tracks_start⟩, List.forall_mem_append.mpr ⟨h.inside, cls_inside⟩⟩

-- Nothing else has been written to.
theorem Console.OnScreen.byte_memory (h : c.OnScreen) {a : Nat} (ha : a ∉ videoMemory) :
    (c.memory mem).byte a = mem.byte a :=
  byte_storeBytes_of_outside mem h.inside ha

theorem HoldsText.memory {format : Word} {parts : List FormatPart}
    (h : HoldsText mem format parts) (hc : c.OnScreen) :
    HoldsFormat (fun a ↦ (c.memory mem).byte a.toNat) format (spellAll parts) := by
  refine ⟨h.holds.1, h.holds.2.congr fun i _ hi ↦ hc.byte_memory (h.apart i ?_)⟩
  rw [List.length_append, List.length_singleton] at hi
  omega

theorem printkAt_eq {format : Word} {parts : List FormatPart} (h : HoldsText mem format parts)
    (hc : c.OnScreen) (hfuel : parts.length < fuel) (args : Nat → Word) (call : Nat) :
    printkAt fuel bufs mem format args call c =
      some (c.putchars (render (fun a ↦ (c.memory mem).byte a.toNat) 8 args parts)) := by
  have ⟨t, hcall, houtput, _⟩ := @printkNew_eq _ format args (bufs call) parts (h.memory hc)
  have hmono := PrintState.loop_mono hcall (fuel - (parts.length + 1))
  rw [Nat.add_sub_cancel' hfuel] at hmono
  have hrun : AphroditeOs.printkNew fuel (fun a ↦ (c.memory mem).byte a.toNat) format args
      (bufs call) = some t := hmono
  rw [printkAt, Console.printkNew, hrun, Option.map_some, houtput]

theorem length_rowFormat : rowFormat.length = 10 := rfl

/-- A pass prints a row, of an entry outside of the video memory. -/
theorem listingPass_eq (htexts : texts.Held mem) (hfuel : 64 ≤ fuel) {s : Listing}
    (hc : s.console.OnScreen) (hp : s.cursor.pMmap.toNat + 24 ≤ 2 ^ 32)
    (happart : ∀ a, s.cursor.pMmap.toNat ≤ a → a < s.cursor.pMmap.toNat + 24 → a ∉ videoMemory) :
    ∃ memoryEnd, listingPass fuel texts bufs mem s = some
      { cursor := mapPass mem s.cursor
        memoryEnd := memoryEnd
        console := s.console.putchars (rowText (mmapAt mem s.cursor.pMmap) ++ [10#8]) } := by
  have hrow := length_rowFormat
  have hentry : ∀ c : Console, c.OnScreen →
      mmapAt (c.memory mem) s.cursor.pMmap = mmapAt mem s.cursor.pMmap :=
    fun c hc ↦ mmapAt_congr hp fun a ha ha' ↦ hc.byte_memory (happart a ha ha')
  rw [listingPass, printkAt_eq htexts.row hc (by omega), Option.map_some, render_rowFormat,
    hentry _ hc]
  dsimp only
  rw [hentry _ (hc.putchars _)]
  exact ⟨_, rfl⟩

/-- The loop prints a row for each entry to go. -/
theorem listingLoop_eq (htexts : texts.Held mem) (hfuel : 64 ≤ fuel) (hscreen : pmb.OffScreen)
    (hend : pmb.mmapAddr.toNat + pmb.mmapLength.toNat < 2 ^ 32) {n : Nat} {done rest : List Mmap}
    {s : Listing} (hs : DecodedTo mem pmb.mmapAddr.toNat
      (pmb.mmapAddr.toNat + pmb.mmapLength.toNat) done rest s.cursor) (hc : s.console.OnScreen)
    (hn : rest.length < n) :
    ∃ memoryEnd, listingLoop fuel texts bufs pmb mem n s = some
      { cursor := (mapPass mem)^[rest.length] s.cursor
        memoryEnd := memoryEnd
        console := s.console.putchars (rest.flatMap fun m ↦ rowText m ++ [10#8]) } := by
  induction n generalizing done rest s with
  | zero => omega
  | succ n ih =>
    have hgoes := hs.mapGoes_iff hend
    cases rest with
    | nil =>
      refine ⟨s.memoryEnd, ?_⟩
      rw [listingLoop, if_neg (by simp [hgoes])]
      show some s = some ⟨s.cursor, s.memoryEnd, s.console.putchars []⟩
      unfold Console.putchars putchars
      rw [List.append_nil]
    | cons m rest =>
      have hm : mmapAt mem s.cursor.pMmap = m := by
        have hahead := hs.ahead.1
        rwa [BitVec.ofNat_toNat, BitVec.setWidth_eq] at hahead
      have hbehind := hs.behind.le
      have hroom : s.cursor.pMmap.toNat + 24 ≤ _ := hs.room (List.cons_ne_nil m rest)
      obtain ⟨memoryEnd, hpass⟩ := @listingPass_eq fuel texts bufs mem htexts hfuel s hc (by omega)
        fun a ha ha' ↦ hscreen a (by omega) (by omega)
      obtain ⟨memoryEnd', hloop⟩ := @ih (done ++ [m]) rest
        ⟨mapPass mem s.cursor, memoryEnd, s.console.putchars (rowText m ++ [10#8])⟩
        (hs.pass hend) (hc.putchars _) (Nat.lt_of_succ_lt_succ hn)
      refine ⟨memoryEnd', ?_⟩
      rw [listingLoop, if_pos (hgoes.mpr (List.cons_ne_nil m rest)), hpass, hm, Option.bind_some,
        hloop]
      dsimp only
      rw [Console.putchars_putchars, List.flatMap_cons, List.length_cons,
        Function.iterate_succ_apply]

/-- The lines of the list. -/
def listingLines (ms : List Mmap) (memoryEnd kernelEnd : Word) : List (List Byte) :=
  chars "System Address Map:" :: chars "BaseL    BaseH    LimitL   LimitH   Type" ::
    (ms.map rowText ++
      [chars "Total memory size: " ++ field 100#8 (megabytes memoryEnd) ++ chars " MB.",
        chars "memory start at 0x" ++ field 120#8 kernelEnd ++ chars "."])

/-- What `start_kernel` prints behind `cls`, and `e820` behind it. -/
theorem startListing_eq (htexts : texts.Held mem) (hfuel : 64 ≤ fuel) {ms : List Mmap}
    (hchain : MmapChain mem pmb.mmapAddr.toNat ms (pmb.mmapAddr.toNat + pmb.mmapLength.toNat))
    (hend : pmb.mmapAddr.toNat + pmb.mmapLength.toNat < 2 ^ 32) (hscreen : pmb.OffScreen)
    (hlen : ms.length < fuel) (magic kernelEnd : Word) (map : Nat → E820Entry) (hc : c.OnScreen) :
    ∃ memoryEnd before, before.OnScreen ∧
      startListing fuel texts bufs pmb mem magic kernelEnd map c = some
      (⟨((mapPass mem)^[ms.length] (mapStart pmb map)).i,
        ((mapPass mem)^[ms.length] (mapStart pmb map)).map⟩,
        (Console.cls before).putchars
          ((listingLines ms memoryEnd kernelEnd).flatMap fun cs ↦ cs ++ [10#8])) := by
  have hline (s : String) (hs : s.toList.length < 60) :
      (plainParts (chars s) ++ [newlinePart]).length < fuel := by
    have hparts := length_plainParts_le s
    rw [List.length_append, List.length_singleton]
    omega
  have hnumber (s s' : String) (part : FormatPart) (hs : s.toList.length + s'.toList.length < 60) :
      (plainParts (chars s) ++ part :: (plainParts (chars s') ++ [newlinePart])).length < fuel := by
    have hparts := length_plainParts_le s
    have hparts' := length_plainParts_le s'
    rw [List.length_append, List.length_cons, List.length_append, List.length_singleton]
    omega
  have ⟨before, hbefore, hinvalid⟩ : ∃ before : Console, before.OnScreen ∧
      (if magic ≠ magicNum then printkAt fuel bufs mem texts.invalid (fun _ ↦ 0#32) 0 c
        else some c) = some before := by
    by_cases hmagic : magic ≠ magicNum
    · rw [if_pos hmagic, printkAt_eq htexts.invalid hc (hline _ (by decide +kernel))]
      exact ⟨_, hc.putchars _, rfl⟩
    · rw [if_neg hmagic]
      exact ⟨c, hc, rfl⟩
  have hhead : ∀ cs ds, ((before.cls.putchars cs).putchars ds).OnScreen :=
    fun cs ds ↦ (hbefore.cls.putchars cs).putchars ds
  have ⟨memoryEnd, hloop⟩ := @listingLoop_eq fuel texts bufs pmb mem htexts hfuel hscreen hend fuel
    [] ms ⟨mapStart pmb map, 0#32, (before.cls.putchars (chars "System Address Map:" ++
      [10#8])).putchars (chars "BaseL    BaseH    LimitL   LimitH   Type" ++ [10#8])⟩
    (decodedTo_start pmb map hchain) (hhead _ _) hlen
  refine ⟨memoryEnd, before, hbefore, ?_⟩
  rw [startListing, hinvalid, Option.bind_some, listMemoryMap,
    printkAt_eq htexts.title hbefore.cls (hline _ (by decide +kernel)), Option.bind_some,
    titleFormat, render_line _ _ (by decide +kernel),
    printkAt_eq htexts.heading (hbefore.cls.putchars _) (hline _ (by decide +kernel)),
    Option.bind_some, headingFormat, render_line _ _ (by decide +kernel), hloop, Option.bind_some,
    printkAt_eq htexts.total ((hhead _ _).putchars _) (hnumber _ _ _ (by decide +kernel)),
    Option.bind_some, render_totalFormat, printkAt_eq htexts.start
      (((hhead _ _).putchars _).putchars _) (hnumber _ _ _ (by decide +kernel)), Option.map_some, render_startFormat, Console.putchars_putchars, Console.putchars_putchars,
    Console.putchars_putchars, Console.putchars_putchars]
  simp [listingLines, List.flatMap_map]

end

/-! ## Rows -/

theorem asciiDigit_not_newline {d : Nat} (h : d < 16) : ¬ isNewline (asciiDigit d) := by
  interval_cases d <;> decide

theorem text_not_newline {b : Nat} {hb16 : b ≤ 16} (hb : 1 < b) (n : Nat) :
    ∀ c ∈ (ascii b hb16).text n, ¬ isNewline c :=
  Alphabet.forall_mem_text hb fun _ hd ↦ asciiDigit_not_newline (hd.trans_le hb16)

theorem field_not_newline (base : Byte) (num : Word) : ∀ c ∈ field base num, ¬ isNewline c := by
  intro c hc
  rcases List.mem_append.mp hc with hzero | htext
  · rw [List.eq_of_mem_replicate hzero]
    decide
  · unfold itoaText at htext
    split_ifs at htext
    · rcases List.mem_cons.mp htext with rfl | hdigit
      · decide
      · exact text_not_newline (by decide) _ c hdigit
    · exact text_not_newline (by decide) _ c htext
    · exact text_not_newline (by decide) _ c htext

theorem length_field (base : Byte) (num : Word) :
    (field base num).length = max 8 (itoaText base num).length := by
  rw [field, List.length_append, List.length_replicate]
  omega

theorem length_field_le (base : Byte) (num : Word) : (field base num).length ≤ 11 := by
  have hlen := (canonicalText_itoaText base num).length
  rw [length_field]
  omega

theorem length_field_hex (num : Word) : (field 120#8 num).length = 8 := by
  have hlen : (itoaText 120#8 num).length ≤ 8 := by
    rw [itoaText, if_neg (fun hneg ↦ absurd hneg.2 (by decide)), if_pos rfl, hex,
      Alphabet.length_text]
    exact Numeral.length_digits_le (by decide) (by decide) num.isLt
  rw [length_field]
  omega

theorem not_slt_zero_of_lt {num : Word} (h : num.toNat < 10 ^ 8) : ¬ num.slt 0#32 := by
  rw [BitVec.slt_iff_toInt_lt, BitVec.toInt_eq_toNat_of_lt (by omega)]
  show ¬ (num.toNat : Int) < 0
  omega

theorem length_field_decimal {num : Word} (h : num.toNat < 10 ^ 8) :
    (field 100#8 num).length = 8 := by
  have hlen : (itoaText 100#8 num).length ≤ 8 := by
    rw [itoaText, if_neg (fun hneg ↦ not_slt_zero_of_lt h hneg.1), if_neg (by decide), decimal,
      Alphabet.length_text]
    exact Numeral.length_digits_le (by decide) (by decide) h
  rw [length_field]
  omega

theorem readNumeral_field_hex (num : Word) :
    readNumeral 120#8 (field 120#8 num) = some (num.toNat : Int) :=
  (readNumeral_zeros_iff _ .x num).mpr (by simp)

theorem readNumeral_field_decimal {num : Word} (h : num.toNat < 10 ^ 8) :
    readNumeral 100#8 (field 100#8 num) = some (num.toNat : Int) := by
  refine ((readNumeral_zeros_iff _ .d num).mpr fun hneg ↦ not_slt_zero_of_lt h hneg.2.1).trans ?_
  exact congrArg some (BitVec.toInt_eq_toNat_of_lt (by omega))

theorem length_rowText_le (m : Mmap) : (rowText m).length ≤ 47 := by
  have htype := length_field_le 100#8 (rowArgs m 4)
  simp only [rowText, List.length_append, List.length_cons, length_field_hex]
  omega

theorem rowText_not_newline (m : Mmap) : ∀ c ∈ rowText m, ¬ isNewline c := by
  have hspace : ¬ isNewline 32#8 := by decide
  simp only [rowText, List.forall_mem_append, List.forall_mem_cons, hspace, not_false_eq_true,
    true_and]
  exact ⟨field_not_newline _ _, field_not_newline _ _, field_not_newline _ _,
    field_not_newline _ _, field_not_newline _ _⟩

theorem listingLines_fit (ms : List Mmap) (memoryEnd kernelEnd : Word) :
    ∀ cs ∈ listingLines ms memoryEnd kernelEnd, cs.length < columns ∧ ∀ c ∈ cs, ¬ isNewline c := by
  have hcolumns : columns = 80 := rfl
  have hchars (s : String) (hs : printable s = true) : ∀ c ∈ chars s, ¬ isNewline c :=
    fun c hc ↦ (chars_of_printable hs c hc).2
  have hlength (s : String) : (chars s).length = s.toList.length := List.length_map _
  have hnumber (s s' : String) (base : Byte) (num : Word) (hs : printable s = true) (hs' : printable s' = true)
      (hlen : s.toList.length + s'.toList.length < 60) :
      (chars s ++ field base num ++ chars s').length < columns ∧
        ∀ c ∈ chars s ++ field base num ++ chars s', ¬ isNewline c := by
    have hfield := length_field_le base num
    rw [List.length_append, List.length_append, hlength, hlength, List.forall_mem_append,
      List.forall_mem_append]
    exact ⟨by omega, ⟨hchars s hs, field_not_newline base num⟩, hchars s' hs'⟩
  rw [listingLines, List.forall_mem_cons, List.forall_mem_cons, List.forall_mem_append,
    List.forall_mem_map, List.forall_mem_cons, List.forall_mem_singleton]
  refine ⟨⟨?_, hchars _ (by decide +kernel)⟩, ⟨?_, hchars _ (by decide +kernel)⟩, fun m _ ↦ ?_,
    hnumber _ _ _ _ (by decide +kernel) (by decide +kernel) (by decide +kernel),
    hnumber _ _ _ _ (by decide +kernel) (by decide +kernel) (by decide +kernel)⟩
  · rw [hlength]
    decide +kernel
  · rw [hlength]
    decide +kernel
  · have hrow := length_rowText_le m
    exact ⟨by omega, rowText_not_newline m⟩

/-! ## The list reads back -/

theorem shown_eq {mem : Word → Byte} {row : Nat} {cs : List Byte}
    (h : ∀ k (hk : k < cs.length), mem (vedioAddr + BitVec.ofNat 32 (2 * (columns * row + k))) = cs[k])
    {col n : Nat} (hroom : col + n ≤ cs.length) : shown mem row col n = (cs.drop col).take n := by
  apply List.ext_getElem
  · simp [shown]
    omega
  · intro j hj hj'
    have hlt : j < n := by simpa [shown] using hj
    simp [shown, h (col + j) (by omega)]

theorem take_field {cs rest : List Byte} (h : cs.length = 8) : (cs ++ rest).take 8 = cs := by
  rw [← h, List.take_left]

theorem drop_field {cs rest : List Byte} (h : cs.length = 8) (c : Byte) (n : Nat) :
    (cs ++ c :: rest).drop (9 + n) = rest.drop n := by
  have hsplit : cs ++ c :: rest = (cs ++ [c]) ++ rest := by simp
  have hlen : (cs ++ [c]).length = 9 := by simp [h]
  rw [hsplit, ← hlen, List.drop_length_add_append]

theorem ofInt_words (v : BitVec 64) :
    BitVec.ofInt 64 ((2 : Int) ^ 32 * (((v >>> 32).setWidth 32).toNat : Int) +
      ((v.setWidth 32).toNat : Int)) = v := by
  have hcast : (2 : Int) ^ 32 * (((v >>> 32).setWidth 32).toNat : Int) +
      ((v.setWidth 32).toNat : Int) =
      ((2 ^ 32 * ((v >>> 32).setWidth 32).toNat + (v.setWidth 32).toNat : Nat) : Int) := by
    push_cast
    rfl
  rw [hcast, BitVec.ofInt_natCast]
  apply BitVec.eq_of_toNat_eq
  have hlt := v.isLt
  simp [Nat.shiftRight_eq_div_pow]
  omega

/-- A row of the list shows its entry. -/
theorem shownEntry_eq {mem : Word → Byte} {row : Nat} {m : Mmap}
    (h : ∀ k (hk : k < (rowText m).length),
      mem (vedioAddr + BitVec.ofNat 32 (2 * (columns * row + k))) = (rowText m)[k])
    (htype : m.type.toNat < 10 ^ 8) : shownEntry mem row = some m.e820 := by
  have htype' : (rowArgs m 4).toNat < 10 ^ 8 := htype
  have hlen4 := length_field_decimal htype'
  have hlen : (rowText m).length = 44 := by simp [rowText, length_field_hex, hlen4]
  have h0 : shown mem row 0 8 = field 120#8 (rowArgs m 0) := by
    rw [shown_eq h (by omega), rowText, List.drop_zero, take_field (length_field_hex _)]
  have h1 : shown mem row 9 8 = field 120#8 (rowArgs m 1) := by
    rw [shown_eq h (by omega), rowText, drop_field (length_field_hex _) _ 0, List.drop_zero,
      take_field (length_field_hex _)]
  have h2 : shown mem row 18 8 = field 120#8 (rowArgs m 2) := by
    rw [shown_eq h (by omega), rowText, drop_field (length_field_hex _) _ 9,
      drop_field (length_field_hex _) _ 0, List.drop_zero, take_field (length_field_hex _)]
  have h3 : shown mem row 27 8 = field 120#8 (rowArgs m 3) := by
    rw [shown_eq h (by omega), rowText, drop_field (length_field_hex _) _ 18,
      drop_field (length_field_hex _) _ 9, drop_field (length_field_hex _) _ 0, List.drop_zero,
      take_field (length_field_hex _)]
  have h4 : shown mem row 36 8 = field 100#8 (rowArgs m 4) := by
    rw [shown_eq h (by omega), rowText, drop_field (length_field_hex _) _ 27,
      drop_field (length_field_hex _) _ 18, drop_field (length_field_hex _) _ 9,
      drop_field (length_field_hex _) _ 0, List.drop_zero, List.take_of_length_le hlen4.le]
  rw [shownEntry, h0, h1, h2, h3, h4, readNumeral_field_hex, readNumeral_field_hex,
    readNumeral_field_hex, readNumeral_field_hex, readNumeral_field_decimal htype']
  show some (E820Entry.mk _ _ _) = some ⟨m.addr, m.limit, m.type⟩
  rw [show rowArgs m 0 = m.addr.setWidth 32 from rfl,
    show rowArgs m 1 = (m.addr >>> 32).setWidth 32 from rfl,
    show rowArgs m 2 = m.limit.setWidth 32 from rfl,
    show rowArgs m 3 = (m.limit >>> 32).setWidth 32 from rfl,
    show rowArgs m 4 = m.type from rfl, ofInt_words, ofInt_words, BitVec.ofInt_natCast,
    BitVec.ofNat_toNat, BitVec.setWidth_eq]

/-- A line of the list is in its row of the screen, whatever was there before. -/
theorem listing_cells {mem : Word → Byte} {ms : List Mmap} (hlen : ms.length ≤ 21)
    (memoryEnd kernelEnd : Word) (before : Console) {i : Nat} (hi : i < ms.length) {k : Nat}
    (hk : k < (rowText ms[i]).length) :
    storeAll mem ((Console.cls before).putchars
        ((listingLines ms memoryEnd kernelEnd).flatMap fun cs ↦ cs ++ [10#8])).stores
        (vedioAddr + BitVec.ofNat 32 (2 * (columns * (2 + i) + k))) = (rowText ms[i])[k] := by
  have hrows : rows = 25 := rfl
  have hcolumns : columns = 80 := rfl
  have hfits := listingLines_fit ms memoryEnd kernelEnd
  have hroom : (listingLines ms memoryEnd kernelEnd).length = ms.length + 4 := by
    simp [listingLines]
  have hindex : 2 + i < (listingLines ms memoryEnd kernelEnd).length := by omega
  have hline : (listingLines ms memoryEnd kernelEnd)[2 + i] = rowText ms[i] := by
    simp [listingLines, Nat.add_comm 2 i, List.getElem_append_left, hi]
  have hwidth := length_rowText_le ms[i]
  have ⟨_, hcells⟩ := @Terminal.puts_lines rows columns Byte _ _ isNewline _ .blank _ 10#8
    (Or.inl rfl) hfits rfl (show 0 + _ ≤ rows by omega)
  have hcell := hcells (2 + i) hindex ⟨2 + i, by omega⟩ ⟨k, by omega⟩ (Nat.zero_add _).symm
    (by rw [hline]; exact hk)
  rw [hline, List.getElem?_eq_getElem hk] at hcell
  have hdraws := (draws_start (storeAll mem before.stores)).putchars tracks_start
    ((listingLines ms memoryEnd kernelEnd).flatMap fun cs ↦ cs ++ [10#8])
  have hwritten := (hdraws.written _ _ _ hcell).1
  rw [← storeAll_append, ← storeAll_append, ← List.append_assoc] at hwritten
  exact hwritten

/-- **The screen shows the map.**  Whatever the screen showed before, and with the map outside of the
video memory: behind `print_memory_map` each row of the list reads back as the entry of `e820` that
the boot loader's map has there, and memory is otherwise as it was. -/
theorem shownEntry_startListing {fuel : Nat} {texts : MapTexts} {bufs : Nat → Nat → Byte}
    {pmb : Mbinfo} {mem : BitMemory} {ms : List Mmap} (htexts : texts.Held mem) (hfuel : 64 ≤ fuel)
    (hchain : MmapChain mem pmb.mmapAddr.toNat ms (pmb.mmapAddr.toNat + pmb.mmapLength.toNat))
    (hend : pmb.mmapAddr.toNat + pmb.mmapLength.toNat < 2 ^ 32) (hscreen : pmb.OffScreen)
    (hlen : ms.length ≤ 21) (htype : ∀ m ∈ ms, m.type.toNat < 10 ^ 8) (magic kernelEnd : Word)
    (map : Nat → E820Entry) {c : Console} (hc : c.OnScreen) :
    ∃ e c', startListing fuel texts bufs pmb mem magic kernelEnd map c = some (e, c') ∧
      e.nrMap = ms.length ∧
      (∀ i (h : i < ms.length), e.map i = ms[i].e820 ∧
        shownEntry (fun a ↦ (c'.memory mem).byte a.toNat) (2 + i) = some ms[i].e820) ∧
      ∀ a, a ∉ videoMemory → (c'.memory mem).byte a = mem.byte a := by
  have ⟨memoryEnd, before, hbefore, hrun⟩ := @startListing_eq fuel texts bufs pmb mem c htexts hfuel
    ms hchain hend hscreen (by omega) magic kernelEnd map hc
  have hlast := decodedTo_iterate hend (decodedTo_start pmb map hchain) le_rfl
  rw [List.take_length] at hlast
  refine ⟨_, _, hrun, hlast.count, fun i hi ↦ ⟨?_, ?_⟩, fun a ha ↦ ?_⟩
  · have hentry := congrArg (fun es ↦ es[i]?) hlast.stored
    simpa [hi] using hentry
  · rw [Console.memory, byte_storeBytes]
    exact shownEntry_eq (fun k hk ↦ listing_cells hlen memoryEnd kernelEnd before hi hk)
      (htype _ (List.getElem_mem hi))
  · exact (hbefore.cls.putchars _).byte_memory ha

/-- An entry of 20 bytes behind its size: RAM below `0x9FC00`. -/
def listingEntry : List Byte :=
  [20#8, 0#8, 0#8, 0#8, 0#8, 0#8, 0#8, 0#8, 0#8, 0#8, 0#8, 0#8,
    0#8, 0xFC#8, 9#8, 0#8, 0#8, 0#8, 0#8, 0#8, 1#8, 0#8, 0#8, 0#8]

def listingStrings : List (List Byte) :=
  [invalidFormat, titleFormat, headingFormat, rowFormat, totalFormat, startFormat].map spellAll

/-- The entry at `0x1000`, and the strings behind it. -/
def listingMemory : BitMemory := fun n ↦
  ((listingEntry ++ listingStrings.flatMap fun text ↦ text ++ [0#8]).getD
    (n / 8 - 0x1000) 0#8).getLsbD (n % 8)

def listingAddr (n : Nat) : Word :=
  BitVec.ofNat 32 (0x1018 + ((listingStrings.take n).flatMap fun text ↦ text ++ [0#8]).length)

theorem holdsText_listing : ∀ n < 6, HoldsFormat (fun a ↦ listingMemory.byte a.toNat)
      (listingAddr n) (listingStrings.getD n []) ∧
    ∀ i ≤ (listingStrings.getD n []).length,
      (listingAddr n + BitVec.ofNat 32 i).toNat ∉ videoMemory := by
  have hends : ∀ n < 6, 0#8 ∉ listingStrings.getD n [] := by decide +kernel
  have hheld : ∀ n < 6, (List.range (listingStrings.getD n [] ++ [0#8]).length).map
      (fun i ↦ bytesAt (fun a ↦ listingMemory.byte a.toNat) (listingAddr n) (0 + i)) =
      listingStrings.getD n [] ++ [0#8] := by decide +kernel
  have hapart : ∀ n < 6, ∀ i ≤ (listingStrings.getD n []).length,
      (listingAddr n + BitVec.ofNat 32 i).toNat ∉ videoMemory := by decide +kernel
  exact fun n hn ↦ ⟨⟨hends n hn, CString.holdsAt_of_map (hheld n hn)⟩, hapart n hn⟩

def listingTexts : MapTexts :=
  ⟨listingAddr 0, listingAddr 1, listingAddr 2, listingAddr 3, listingAddr 4, listingAddr 5⟩

theorem listingTexts_held : listingTexts.Held listingMemory := by
  have hheld := holdsText_listing
  exact ⟨⟨(hheld 0 (by decide)).1, (hheld 0 (by decide)).2⟩,
    ⟨(hheld 1 (by decide)).1, (hheld 1 (by decide)).2⟩,
    ⟨(hheld 2 (by decide)).1, (hheld 2 (by decide)).2⟩,
    ⟨(hheld 3 (by decide)).1, (hheld 3 (by decide)).2⟩,
    ⟨(hheld 4 (by decide)).1, (hheld 4 (by decide)).2⟩,
    ⟨(hheld 5 (by decide)).1, (hheld 5 (by decide)).2⟩⟩

theorem shownEntry_startListing_one :
    ∃ e c', startListing 64 listingTexts (fun _ _ ↦ 0#8) ⟨24#32, 0x1000#32⟩ listingMemory magicNum
        0xC0200000#32 (fun _ ↦ ⟨0#64, 0#64, 0#32⟩) ⟨[], ⟨0#32, 0#32⟩⟩ = some (e, c') ∧
      e.nrMap = 1 ∧
      (∀ i (h : i < 1), e.map i = [(mmapAt listingMemory 0x1000#32).e820][i] ∧
        shownEntry (fun a ↦ (c'.memory listingMemory).byte a.toNat) (2 + i) =
          some [(mmapAt listingMemory 0x1000#32).e820][i]) ∧
      ∀ a, a ∉ videoMemory → (c'.memory listingMemory).byte a = listingMemory.byte a := by
  have hsize : (mmapAt listingMemory 0x1000#32).size = 20#32 := by decide +kernel
  have htype : (mmapAt listingMemory 0x1000#32).type = 1#32 := by decide +kernel
  have hchain : MmapChain listingMemory 0x1000 [mmapAt listingMemory 0x1000#32] (0x1000 + 24) := by
    refine ⟨rfl, ?_, ?_⟩
    · rw [hsize]
      decide
    · rw [hsize]
      rfl
  have hscreen : (⟨24#32, 0x1000#32⟩ : Mbinfo).OffScreen := Mbinfo.offScreen_of_le (by decide)
  have ⟨e, c', hrun, hcount, hshown, hframe⟩ := @shownEntry_startListing 64 listingTexts
    (fun _ _ ↦ 0#8) ⟨24#32, 0x1000#32⟩ listingMemory _ listingTexts_held le_rfl hchain (by decide)
    hscreen (by simp) (by simp [htype]) magicNum 0xC0200000#32 (fun _ ↦ ⟨0#64, 0#64, 0#32⟩)
    ⟨[], ⟨0#32, 0#32⟩⟩ ⟨⟨.blank, tracks_start⟩, by simp⟩
  refine ⟨e, c', hrun, hcount, fun i hi ↦ ?_, hframe⟩
  obtain rfl : i = 0 := Nat.lt_one_iff.mp hi
  exact hshown 0 (by simp)

end AphroditeOs
