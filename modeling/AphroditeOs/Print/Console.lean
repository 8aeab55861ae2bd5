import AphroditeOs.Lib.Sweep
import AphroditeOs.Lib.Terminal
import AphroditeOs.Loader.Image
import AphroditeOs.Page

/-!
# The console (`lib/print.c`)

`cls` and `putchar` as the bytes that they store, in order, and the position that they leave.  A
character takes a cell of two bytes, itself and its attribute.
-/

namespace AphroditeOs

def columns : Nat := 80

def rows : Nat := 25

def cellAttribute : Byte := 7#8

def vedioAddr : Word := 0xB8000#32

/-- The bytes of the cells. -/
def videoMemory : Range := ⟨vedioAddr.toNat, vedioAddr.toNat + 4000⟩

/-- `x_pos` and `y_pos`. -/
structure ConsolePos where
  xPos : Word
  yPos : Word
  deriving DecidableEq, Repr

/-- The memory after stores. -/
def storeAll (mem : Word → Byte) : List (Word × Byte) → Word → Byte
  | [] => mem
  | (a, b) :: stores => storeAll (Function.update mem a b) stores

/-- Stores into memory, in order. -/
def storeBytes (mem : BitMemory) (ws : List (Word × Byte)) : BitMemory :=
  ws.foldl (fun mem w ↦ mem.fill w.1.toNat w.2 1) mem

def cls : List (Word × Byte) × ConsolePos :=
  ((List.range (columns * rows)).map fun i ↦ (vedioAddr + BitVec.ofNat 32 i, 0#8), ⟨0#32, 0#32⟩)

namespace ConsolePos

def newline (s : ConsolePos) : ConsolePos :=
  { xPos := 0#32
    yPos := if s.yPos + 1#32 ≥ BitVec.ofNat 32 rows then 0#32 else s.yPos + 1#32 }

def cellAddr (s : ConsolePos) : Word :=
  vedioAddr + (s.xPos + s.yPos * BitVec.ofNat 32 columns) * 2#32

end ConsolePos

/-- `'\n'` and `'\r'` -/
def isNewline (c : Byte) : Prop := c = 10#8 ∨ c = 13#8

instance : DecidablePred isNewline := fun _ ↦ inferInstanceAs (Decidable (_ ∨ _))

def putchar (c : Byte) (s : ConsolePos) : List (Word × Byte) × ConsolePos :=
  if isNewline c then ([], s.newline)
  else
    let next := { s with xPos := s.xPos + 1#32 }
    ([(s.cellAddr, c), (s.cellAddr + 1#32, cellAttribute)],
      if next.xPos ≥ BitVec.ofNat 32 columns then next.newline else next)

/-- `putchar` of each character. -/
def putchars : List Byte → ConsolePos → List (Word × Byte) × ConsolePos
  | [], s => ([], s)
  | c :: cs, s =>
    let first := putchar c s
    let rest := putchars cs first.2
    (first.1 ++ rest.1, rest.2)

/-- What `cls` and the characters of a string store. -/
def consoleStores (cs : List Byte) : List (Word × Byte) := cls.1 ++ (putchars cs cls.2).1

/-! ## The screen -/

/-- A terminal of the size of the screen. -/
abbrev Screen := Terminal rows columns Byte

instance : NeZero rows := ⟨by decide⟩

instance : NeZero columns := ⟨by decide⟩

/-- The place of a cell in the 4000 bytes of the video memory. -/
def cellIndex (r : Fin rows) (c : Fin columns) : Nat := columns * r + c

def charAddr (r : Fin rows) (c : Fin columns) : Word := vedioAddr + BitVec.ofNat 32 (2 * cellIndex r c)

def attrAddr (r : Fin rows) (c : Fin columns) : Word :=
  vedioAddr + BitVec.ofNat 32 (2 * cellIndex r c + 1)

/-- The video memory shows the terminal. -/
structure Shows (mem : Word → Byte) (t : Screen) : Prop where
  blank : ∀ r c, t.cells r c = none → mem (charAddr r c) = 0#8
  written : ∀ r c ch, t.cells r c = some ch →
    mem (charAddr r c) = ch ∧ mem (attrAddr r c) = cellAttribute

/-- The console is a terminal that begins blank, and stores nothing but its cells. -/
structure RefinesTerminal (mem : Word → Byte) (cs : List Byte) : Prop where
  shows : Shows (storeAll mem (consoleStores cs)) (Terminal.blank.puts isNewline cs)
  inside : ∀ w ∈ consoleStores cs, (w.1 - vedioAddr).toNat < 4000

section

variable {mem mem₀ : Word → Byte} {s : ConsolePos} {t : Screen} {c : Byte}

theorem storeAll_append (ws vs : List (Word × Byte)) :
    storeAll mem (ws ++ vs) = storeAll (storeAll mem ws) vs := by
  induction ws generalizing mem with
  | nil => rfl
  | cons w ws ih => exact ih

/-- A memory of bytes and one of bits come to the same by stores. -/
theorem byte_storeBytes (mem : BitMemory) (ws : List (Word × Byte)) :
    (fun a : Word ↦ (storeBytes mem ws).byte a.toNat) = storeAll (fun a ↦ mem.byte a.toNat) ws := by
  induction ws generalizing mem with
  | nil => rfl
  | cons w ws ih =>
    rw [storeBytes, List.foldl_cons, ← storeBytes, ih, storeAll]
    congr 1
    funext a
    rw [BitMemory.byte_fill, Function.update_apply]
    congr 1
    rw [← BitVec.toNat_inj]
    exact propext ⟨fun h ↦ by omega, fun h ↦ by omega⟩

theorem mem_videoMemory {a : Word} (h : (a - vedioAddr).toNat < 4000) : a.toNat ∈ videoMemory := by
  have hvedio : vedioAddr.toNat = 0xB8000 := rfl
  rw [BitVec.toNat_sub, hvedio] at h
  have ha := a.isLt
  rw [Range.mem_iff, videoMemory, hvedio]
  dsimp only
  omega

theorem byte_storeBytes_of_outside (mem : BitMemory) {ws : List (Word × Byte)}
    (hws : ∀ w ∈ ws, (w.1 - vedioAddr).toNat < 4000) {a : Nat} (ha : a ∉ videoMemory) :
    (storeBytes mem ws).byte a = mem.byte a := by
  induction ws generalizing mem with
  | nil => rfl
  | cons w ws ih =>
    rw [List.forall_mem_cons] at hws
    have hw := mem_videoMemory hws.1
    rw [storeBytes, List.foldl_cons, ← storeBytes, ih _ hws.2, BitMemory.byte_fill, if_neg]
    rintro ⟨hle, hlt⟩
    exact ha ((show a = w.1.toNat by omega) ▸ hw)

theorem vedioAddr_add_inj {j k : Nat} (hj : j < 2 ^ 32) (hk : k < 2 ^ 32) :
    vedioAddr + BitVec.ofNat 32 j = vedioAddr + BitVec.ofNat 32 k ↔ j = k := by
  rw [BitVec.add_right_inj]
  constructor
  · intro h
    have hnat := congrArg BitVec.toNat h
    rwa [BitVec.toNat_ofNat, BitVec.toNat_ofNat, Nat.mod_eq_of_lt hj, Nat.mod_eq_of_lt hk] at hnat
  · rintro rfl
    rfl

theorem toNat_vedioAddr_add_sub {k : Nat} (hk : k < 2 ^ 32) :
    (vedioAddr + BitVec.ofNat 32 k - vedioAddr).toNat = k := by
  rw [BitVec.add_comm, BitVec.add_sub_cancel, BitVec.toNat_ofNat, Nat.mod_eq_of_lt hk]

theorem cellIndex_lt (r : Fin rows) (c : Fin columns) : cellIndex r c < 2000 := by
  have hr : r.val < 25 := r.isLt
  have hc : c.val < 80 := c.isLt
  show 80 * r.val + c.val < 2000
  omega

theorem cellIndex_inj {r r' : Fin rows} {c c' : Fin columns} :
    cellIndex r c = cellIndex r' c' ↔ r = r' ∧ c = c' := by
  have hc : c.val < 80 := c.isLt
  have hc' : c'.val < 80 := c'.isLt
  rw [Fin.ext_iff, Fin.ext_iff]
  show 80 * r.val + c.val = 80 * r'.val + c'.val ↔ _
  omega

theorem charAddr_ne_attrAddr (r r' : Fin rows) (k k' : Fin columns) :
    charAddr r k ≠ attrAddr r' k' := by
  have hlt := cellIndex_lt r k
  have hlt' := cellIndex_lt r' k'
  rw [charAddr, attrAddr, ne_eq, vedioAddr_add_inj (by omega) (by omega)]
  omega

/-- The two stores of a character. -/
theorem storeAll_cell (R r : Fin rows) (C k : Fin columns) (a b : Byte) :
    storeAll mem [(charAddr R C, a), (attrAddr R C, b)] (charAddr r k) =
        (if r = R ∧ k = C then a else mem (charAddr r k)) ∧
      storeAll mem [(charAddr R C, a), (attrAddr R C, b)] (attrAddr r k) =
        (if r = R ∧ k = C then b else mem (attrAddr r k)) := by
  have hlt := cellIndex_lt r k
  have hlt' := cellIndex_lt R C
  have hchar : charAddr r k = charAddr R C ↔ r = R ∧ k = C := by
    rw [charAddr, charAddr, vedioAddr_add_inj (by omega) (by omega), ← cellIndex_inj]
    omega
  have hattr : attrAddr r k = attrAddr R C ↔ r = R ∧ k = C := by
    rw [attrAddr, attrAddr, vedioAddr_add_inj (by omega) (by omega), ← cellIndex_inj]
    omega
  constructor
  · simp [storeAll, Function.update_apply, charAddr_ne_attrAddr, hchar]
  · simp [storeAll, Function.update_apply, (charAddr_ne_attrAddr _ _ _ _).symm, hattr]

/-! ## Clearing -/

theorem storeAll_zeros {n k : Nat} (hn : n ≤ 2 ^ 32) (hk : k < 2 ^ 32) :
    storeAll mem ((List.range n).map fun i ↦ (vedioAddr + BitVec.ofNat 32 i, 0#8))
        (vedioAddr + BitVec.ofNat 32 k) =
      if k < n then 0#8 else mem (vedioAddr + BitVec.ofNat 32 k) := by
  induction n with
  | zero => rfl
  | succ n ih =>
    rw [List.range_succ, List.map_append, storeAll_append, List.map_singleton, storeAll, storeAll]
    by_cases heq : k = n
    · rw [heq, Function.update_self, if_pos (Nat.lt_succ_self n)]
    · rw [Function.update_of_ne, ih (by omega)]
      · congr 1
        simp
        omega
      · exact fun h ↦ heq ((vedioAddr_add_inj hk (by omega)).mp h)

/-- `cls` clears as many bytes as there are cells. -/
theorem storeAll_cls_charAddr (r : Fin rows) (k : Fin columns) :
    storeAll mem cls.1 (charAddr r k) = if cellIndex r k < 1000 then 0#8 else mem (charAddr r k) := by
  have hlt := cellIndex_lt r k
  rw [cls, charAddr, storeAll_zeros (by decide) (by omega)]
  congr 1
  show (2 * cellIndex r k < 2000) = _
  simp
  omega

/-! ## Characters -/

/-- The position is that of the terminal. -/
structure Tracks (s : ConsolePos) (t : Screen) : Prop where
  xPos : s.xPos = BitVec.ofNat 32 t.col
  yPos : s.yPos = BitVec.ofNat 32 t.row

/-- The cells that have been written are shown, and the others are as they were. -/
structure Draws (mem₀ mem : Word → Byte) (t : Screen) : Prop where
  untouched : ∀ r c, t.cells r c = none → mem (charAddr r c) = mem₀ (charAddr r c)
  written : ∀ r c ch, t.cells r c = some ch →
    mem (charAddr r c) = ch ∧ mem (attrAddr r c) = cellAttribute

theorem Tracks.cellAddr (h : Tracks s t) : s.cellAddr = charAddr t.row t.col := by
  rw [ConsolePos.cellAddr, charAddr, h.xPos, h.yPos, cellIndex, Nat.mul_comm 2, BitVec.ofNat_mul,
    BitVec.ofNat_add, BitVec.ofNat_mul, BitVec.mul_comm (BitVec.ofNat 32 columns), BitVec.add_comm (_ * _)]

theorem Tracks.cellAddr_add_one (h : Tracks s t) : s.cellAddr + 1#32 = attrAddr t.row t.col := by
  rw [h.cellAddr, charAddr, attrAddr, BitVec.ofNat_add, BitVec.add_assoc]

theorem tracks_start : Tracks cls.2 Terminal.blank := ⟨rfl, rfl⟩

-- The comparison with a bound after a step up to it.
theorem add_one_ge_iff {i n : Nat} (hi : i < n) (hn : n < 2 ^ 32) :
    BitVec.ofNat 32 i + 1#32 ≥ BitVec.ofNat 32 n ↔ ¬ i + 1 < n := by
  rw [← BitVec.ofNat_add, ge_iff_le, BitVec.le_def, BitVec.toNat_ofNat, BitVec.toNat_ofNat,
    Nat.mod_eq_of_lt hn, Nat.mod_eq_of_lt (by omega), not_lt]

theorem Tracks.newline (h : Tracks s t) : Tracks s.newline t.newline := by
  refine ⟨rfl, ?_⟩
  have hguard := add_one_ge_iff t.row.isLt (by decide)
  rw [ConsolePos.newline, h.yPos, Terminal.val_row_newline]
  by_cases hlt : t.row.val + 1 < rows
  · rw [if_neg (fun hge ↦ hguard.mp hge hlt), if_pos hlt, BitVec.ofNat_add]
  · rw [if_pos (hguard.mpr hlt), if_neg hlt]

theorem Tracks.advance (h : Tracks s t) :
    Tracks (if s.xPos + 1#32 ≥ BitVec.ofNat 32 columns then
        ({ s with xPos := s.xPos + 1#32 } : ConsolePos).newline
      else { s with xPos := s.xPos + 1#32 }) t.advance := by
  have hguard := add_one_ge_iff t.col.isLt (by decide)
  rw [h.xPos, Terminal.advance]
  by_cases hlt : t.col.val + 1 < columns
  · rw [if_neg (fun hge ↦ hguard.mp hge hlt), if_pos hlt]
    refine ⟨?_, h.yPos⟩
    rw [Terminal.val_col_add_one t hlt, BitVec.ofNat_add]
  · rw [if_pos (hguard.mpr hlt), if_neg hlt]
    exact h.newline

/-- A character moves the position as it does on the terminal. -/
theorem Tracks.putchar (h : Tracks s t) (c : Byte) :
    Tracks (putchar c s).2 (t.put isNewline c) := by
  rw [AphroditeOs.putchar, Terminal.put]
  by_cases hc : isNewline c
  · rw [if_pos hc, if_pos hc]
    exact h.newline
  · rw [if_neg hc, if_neg hc]
    have hset : Tracks s (t.set c) := ⟨h.xPos, h.yPos⟩
    exact hset.advance

theorem Tracks.putchar_inside (h : Tracks s t) (c : Byte) :
    ∀ w ∈ (AphroditeOs.putchar c s).1, (w.1 - vedioAddr).toNat < 4000 := by
  have hlt := cellIndex_lt t.row t.col
  rw [AphroditeOs.putchar]
  by_cases hc : isNewline c
  · simp [hc]
  · rw [if_neg hc, h.cellAddr_add_one, h.cellAddr]
    simp only [List.forall_mem_cons, List.not_mem_nil, false_imp_iff, implies_true, and_true,
      charAddr, attrAddr]
    rw [toNat_vedioAddr_add_sub (by omega), toNat_vedioAddr_add_sub (by omega)]
    omega

/-- A string moves the position as well, and stores inside the video memory. -/
theorem Tracks.putchars (h : Tracks s t) (cs : List Byte) :
    Tracks (AphroditeOs.putchars cs s).2 (t.puts isNewline cs) ∧
      ∀ w ∈ (AphroditeOs.putchars cs s).1, (w.1 - vedioAddr).toNat < 4000 := by
  induction cs generalizing s t with
  | nil => exact ⟨h, by simp [AphroditeOs.putchars]⟩
  | cons c cs ih =>
    have hrest := ih (h.putchar c)
    rw [AphroditeOs.putchars]
    dsimp only
    rw [List.forall_mem_append]
    exact ⟨hrest.1, h.putchar_inside c, hrest.2⟩

/-- A character is drawn as the terminal has it. -/
theorem Draws.putchar (hmem : Draws mem₀ mem t) (h : Tracks s t) (c : Byte) :
    Draws mem₀ (storeAll mem (AphroditeOs.putchar c s).1) (t.put isNewline c) := by
  rw [AphroditeOs.putchar, Terminal.put]
  by_cases hc : isNewline c
  · rw [if_pos hc, if_pos hc]
    exact ⟨hmem.untouched, hmem.written⟩
  · rw [if_neg hc, if_neg hc, h.cellAddr_add_one, h.cellAddr]
    constructor
    · intro r k hnone
      rw [Terminal.cells_advance, Terminal.cells_set] at hnone
      rw [(storeAll_cell t.row r t.col k c cellAttribute).1]
      by_cases hcell : r = t.row ∧ k = t.col
      · simp [hcell] at hnone
      · rw [if_neg hcell] at hnone ⊢
        exact hmem.untouched r k hnone
    · intro r k ch hsome
      rw [Terminal.cells_advance, Terminal.cells_set] at hsome
      rw [(storeAll_cell t.row r t.col k c cellAttribute).1,
        (storeAll_cell t.row r t.col k c cellAttribute).2]
      by_cases hcell : r = t.row ∧ k = t.col
      · rw [if_pos hcell] at hsome ⊢
        rw [if_pos hcell]
        exact ⟨Option.some.inj hsome, rfl⟩
      · rw [if_neg hcell] at hsome ⊢
        rw [if_neg hcell]
        exact hmem.written r k ch hsome

/-- A string is drawn as the terminal has it. -/
theorem Draws.putchars (hmem : Draws mem₀ mem t) (h : Tracks s t) (cs : List Byte) :
    Draws mem₀ (storeAll mem (AphroditeOs.putchars cs s).1) (t.puts isNewline cs) := by
  induction cs generalizing mem s t with
  | nil => exact hmem
  | cons c cs ih =>
    rw [AphroditeOs.putchars]
    dsimp only
    rw [storeAll_append]
    exact ih (hmem.putchar h c) (h.putchar c)

theorem draws_start (mem : Word → Byte) : Draws (storeAll mem cls.1) (storeAll mem cls.1) .blank :=
  ⟨fun _ _ _ ↦ rfl, fun _ _ _ h ↦ absurd h (by simp [Terminal.blank])⟩

theorem cls_inside : ∀ w ∈ cls.1, (w.1 - vedioAddr).toNat < 4000 := by
  intro w hw
  simp only [cls, List.mem_map, List.mem_range] at hw
  obtain ⟨i, hi, rfl⟩ := hw
  change i < 2000 at hi
  rw [toNat_vedioAddr_add_sub (by omega)]
  omega

end

/-- **The console is a terminal exactly when no old character is left to be seen**: in each cell of
the lower half of the screen there was none, or the string puts one there. -/
theorem refinesTerminal_iff (mem : Word → Byte) (cs : List Byte) :
    RefinesTerminal mem cs ↔ ∀ r c, 1000 ≤ cellIndex r c →
      ((Terminal.blank : Screen).puts isNewline cs).cells r c = none →
      mem (charAddr r c) = 0#8 := by
  have hdraws := (draws_start mem).putchars tracks_start cs
  have hinside := (tracks_start.putchars cs).2
  rw [← storeAll_append] at hdraws
  constructor
  · intro h r c hlow hnone
    have hblank := h.shows.blank r c hnone
    rwa [consoleStores, hdraws.untouched r c hnone, storeAll_cls_charAddr,
      if_neg (not_lt.mpr hlow)] at hblank
  · intro h
    refine ⟨⟨fun r c hnone ↦ ?_, hdraws.written⟩, ?_⟩
    · rw [consoleStores, hdraws.untouched r c hnone, storeAll_cls_charAddr]
      by_cases hlow : cellIndex r c < 1000
      · rw [if_pos hlow]
      · rw [if_neg hlow, h r c (not_lt.mp hlow) hnone]
    · rw [consoleStores, List.forall_mem_append]
      exact ⟨cls_inside, hinside⟩

/-- A screen full of letters is cleared to the middle. -/
theorem not_forall_refinesTerminal : ¬ ∀ mem cs, RefinesTerminal mem cs := by
  intro h
  have hblank := (h (fun _ ↦ 0x41#8) []).shows.blank (Fin.ofNat rows 24) 0 rfl
  rw [consoleStores, putchars, List.append_nil, storeAll_cls_charAddr] at hblank
  exact absurd hblank (by decide)

end AphroditeOs
