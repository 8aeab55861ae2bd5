import AphroditeOs.Lib.BitMemory

/-!
# Page tables

The two-level tables of a 32-bit x86 machine with pages of 4 KB, in a bit-addressed memory: a page
directory and page tables of 1024 entries each.  The section builds up a window, a stretch of linear
addresses that the tables map page by page, and a second one for the same tables further up.
-/

namespace PageTables

/-- Entry `i` of the table in the page at address `page`. -/
def entry (mem : BitMemory) (page i : Nat) : BitVec 32 := mem.word32 (page + 4 * i)

def setEntry (mem : BitMemory) (page i : Nat) (v : BitVec 32) : BitMemory :=
  mem.store32 (page + 4 * i) v

/-- `count` entries from entry `i` on set to the values of `f`. -/
def setEntries (mem : BitMemory) (page : Nat) (f : Nat → BitVec 32) : Nat → Nat → BitMemory
  | 0, _ => mem
  | count + 1, i => setEntries (setEntry mem page i (f i)) page f count (i + 1)

def present (e : BitVec 32) : Bool := e.getLsbD 0

/-- The address of the page that an entry names. -/
def frame (e : BitVec 32) : Nat := e.toNat / 4096 * 4096

/-- The table entry that the directory `dir` leads to for the linear address `va`. -/
def walk (mem : BitMemory) (dir : Nat) (va : BitVec 32) : Option (BitVec 32) :=
  let pde := entry mem dir (va.toNat / 2 ^ 22)
  if present pde then
    let pte := entry mem (frame pde) (va.toNat / 4096 % 1024)
    if present pte then some pte else none
  else none

/-- The physical address of the linear address `va`. -/
def translate (mem : BitMemory) (dir : Nat) (va : BitVec 32) : Option Nat :=
  (walk mem dir va).map fun pte ↦ frame pte + va.toNat % 4096

/-- The linear address `va` leads to the page at address `page`, with the given flags. -/
def MapsPage (mem : BitMemory) (dir : Nat) (va : BitVec 32) (page flags : Nat) : Prop :=
  ∃ e, walk mem dir va = some e ∧ frame e = page ∧ e.toNat % 4096 = flags

/-- The first `n` entries of the directory, and the `n` entries from entry `h` on, name the tables
`table`, and these hold the entries `pte`. -/
structure Windows (mem : BitMemory) (dir h n : Nat) (table pte : Nat → BitVec 32) : Prop where
  low : ∀ i < n, entry mem dir i = table i
  high : ∀ i < n, entry mem dir (h + i) = table i
  ptes : ∀ i < n, ∀ j < 1024, entry mem (frame (table i)) j = pte (1024 * i + j)

/-! ## Entries -/

theorem dvd_frame (e : BitVec 32) : 4096 ∣ frame e := Nat.dvd_mul_left _ _

theorem entry_setEntry (mem : BitMemory) {page page' i j : Nat} (v : BitVec 32)
    (hpage : 4096 ∣ page) (hpage' : 4096 ∣ page') (hi : i < 1024) (hj : j < 1024) :
    entry (setEntry mem page i v) page' j =
      if page' = page ∧ j = i then v else entry mem page' j := by
  unfold entry setEntry
  split
  next hsame =>
    rw [hsame.1, hsame.2, BitMemory.word32_store32_self]
  next hne =>
    apply BitMemory.word32_store32_disjoint
    omega

-- One value for two entries of a table.
theorem entry_setEntry_setEntry (mem : BitMemory) {page page' i i' j : Nat} (v : BitVec 32)
    (hpage : 4096 ∣ page) (hpage' : 4096 ∣ page') (hi : i < 1024) (hi' : i' < 1024) (hj : j < 1024) :
    entry (setEntry (setEntry mem page i v) page i' v) page' j =
      if page' = page ∧ (j = i ∨ j = i') then v else entry mem page' j := by
  rw [entry_setEntry _ v hpage hpage' hi' hj, entry_setEntry mem v hpage hpage' hi hj]
  by_cases hlast : page' = page ∧ j = i'
  · rw [if_pos hlast, if_pos (by omega)]
  · rw [if_neg hlast]
    exact if_congr (by omega) rfl rfl

theorem entry_setEntries (mem : BitMemory) {page page' count i j : Nat} (f : Nat → BitVec 32)
    (hpage : 4096 ∣ page) (hpage' : 4096 ∣ page') (hi : i + count ≤ 1024) (hj : j < 1024) :
    entry (setEntries mem page f count i) page' j =
      if page' = page ∧ i ≤ j ∧ j < i + count then f j else entry mem page' j := by
  induction count generalizing mem i with
  | zero =>
    rw [setEntries, if_neg (by omega)]
  | succ count ih =>
    rw [setEntries, ih _ (by omega), entry_setEntry mem (f i) hpage hpage' (by omega) hj]
    by_cases hsame : page' = page ∧ j = i
    · rw [if_pos hsame, if_neg (by omega), if_pos (by omega), hsame.2]
    · rw [if_neg hsame]
      by_cases hin : page' = page ∧ i + 1 ≤ j ∧ j < i + 1 + count
      · rw [if_pos hin, if_pos (by omega)]
      · rw [if_neg hin, if_neg (by omega)]

-- Flags below the page number stay flags.
theorem toNat_or_flags {x flags : BitVec 32} (hx : 4096 ∣ x.toNat) (hflags : flags.toNat < 4096) :
    (x ||| flags).toNat = x.toNat + flags.toNat := by
  have ⟨c, hc⟩ := hx
  have hor : x.toNat + flags.toNat = x.toNat ||| flags.toNat := by
    rw [hc]
    exact Nat.two_pow_add_eq_or_of_lt (i := 12) hflags c
  rw [BitVec.toNat_or, ← hor]

theorem add_flags {x flags : BitVec 32} (hx : 4096 ∣ x.toNat) (hflags : flags.toNat < 4096) :
    x + flags = x ||| flags := by
  have hlt := x.isLt
  have hroom : x.toNat + flags.toNat < 2 ^ 32 := by omega
  apply BitVec.eq_of_toNat_eq
  rw [toNat_or_flags hx hflags, BitVec.toNat_add, Nat.mod_eq_of_lt hroom]

theorem frame_or_flags {x flags : BitVec 32} (hx : 4096 ∣ x.toNat) (hflags : flags.toNat < 4096) :
    frame (x ||| flags) = x.toNat := by
  rw [frame, toNat_or_flags hx hflags]
  omega

theorem present_or_flags {x flags : BitVec 32} (h : present flags = true) :
    present (x ||| flags) = true := by
  unfold present at h ⊢
  rw [BitVec.getLsbD_or, h, Bool.or_true]

/-! ## Walks -/

section

variable {mem mem' : BitMemory} {dir h n : Nat} {table pte : Nat → BitVec 32}

theorem walk_eq {va pde : BitVec 32} (hpde : entry mem dir (va.toNat / 2 ^ 22) = pde)
    (hpresent : present pde = true)
    (hpte : present (entry mem (frame pde) (va.toNat / 4096 % 1024)) = true) :
    walk mem dir va = some (entry mem (frame pde) (va.toNat / 4096 % 1024)) := by
  unfold walk
  dsimp only
  rw [hpde, if_pos hpresent, if_pos hpte]

/-- Through either window a page is reached by its number in the window. -/
theorem Windows.walk (hw : Windows mem dir h n table pte) (htable : ∀ i < n, present (table i) = true)
    {va : BitVec 32} {p : Nat} (hp : p < 1024 * n) (hpte : present (pte p) = true)
    (hva : va.toNat / 4096 = p ∨ va.toNat / 4096 = 1024 * h + p) :
    PageTables.walk mem dir va = some (pte p) := by
  have hi : p / 1024 < n := by omega
  have hslot : va.toNat / 4096 % 1024 = p % 1024 := by omega
  have hpde : entry mem dir (va.toNat / 2 ^ 22) = table (p / 1024) := by
    rcases hva with hlow | hhigh
    · rw [show va.toNat / 2 ^ 22 = p / 1024 by omega, hw.low _ hi]
    · rw [show va.toNat / 2 ^ 22 = h + p / 1024 by omega, hw.high _ hi]
  have hentry := hw.ptes (p / 1024) hi (p % 1024) (Nat.mod_lt _ (by decide))
  rw [Nat.div_add_mod] at hentry
  rw [← hslot] at hentry
  rw [walk_eq hpde (htable _ hi) (by rwa [hentry]), hentry]

theorem MapsPage.translate {va : BitVec 32} {page flags : Nat} (h : MapsPage mem dir va page flags) :
    translate mem dir va = some (page + va.toNat % 4096) := by
  have ⟨e, hwalk, hframe, _⟩ := h
  rw [PageTables.translate, hwalk, Option.map_some, hframe]

/-! ## Building a window -/

/-- One more table: both windows get their entry for it, nothing else changes outside the directory,
and then the table is filled. -/
theorem Windows.pass (hw : Windows mem dir h n table pte) (hdir : 4096 ∣ dir) (hnh : n < h)
    (hroom : h + n < 1024)
    (hentries : ∀ i < 1024, entry mem' dir i =
      if i = n ∨ i = h + n then table n else entry mem dir i)
    (hother : ∀ page, 4096 ∣ page → page ≠ dir → ∀ j < 1024, entry mem' page j = entry mem page j)
    (hframe : ∀ i ≤ n, frame (table i) ≠ dir)
    (hdistinct : ∀ i < n, frame (table i) ≠ frame (table n)) :
    Windows (setEntries mem' (frame (table n)) (fun j ↦ pte (1024 * n + j)) 1024 0) dir h (n + 1)
      table pte := by
  have hfill : ∀ page, 4096 ∣ page → ∀ j < 1024,
      entry (setEntries mem' (frame (table n)) (fun j ↦ pte (1024 * n + j)) 1024 0) page j =
        if page = frame (table n) then pte (1024 * n + j) else entry mem' page j := by
    intro page hpage j hj
    rw [entry_setEntries mem' _ (dvd_frame _) hpage (by omega) hj]
    by_cases hsame : page = frame (table n)
    · rw [if_pos hsame, if_pos (by omega)]
    · rw [if_neg hsame, if_neg (by omega)]
  have hdirectory : ∀ i < 1024,
      entry (setEntries mem' (frame (table n)) (fun j ↦ pte (1024 * n + j)) 1024 0) dir i =
        if i = n ∨ i = h + n then table n else entry mem dir i := by
    intro i hi
    rw [hfill dir hdir i hi, if_neg (hframe n le_rfl).symm, hentries i hi]
  constructor
  · intro i hi
    rw [hdirectory i (by omega)]
    rcases Nat.eq_or_lt_of_le (Nat.le_of_lt_succ hi) with heq | hlt
    · rw [if_pos (Or.inl heq), heq]
    · rw [if_neg (by omega), hw.low i hlt]
  · intro i hi
    rw [hdirectory (h + i) (by omega)]
    rcases Nat.eq_or_lt_of_le (Nat.le_of_lt_succ hi) with heq | hlt
    · rw [if_pos (by omega), heq]
    · rw [if_neg (by omega), hw.high i hlt]
  · intro i hi j hj
    rw [hfill _ (dvd_frame _) j hj]
    rcases Nat.eq_or_lt_of_le (Nat.le_of_lt_succ hi) with heq | hlt
    · rw [heq, if_pos rfl]
    · rw [if_neg (hdistinct i hlt), hother _ (dvd_frame _) (hframe i hlt.le) j hj,
        hw.ptes i hlt j hj]

end

end PageTables
