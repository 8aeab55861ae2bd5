import AphroditeOs.Lib.PageTables

/-!
# Accesses through page tables

Loads and stores at linear addresses, in a bit-addressed memory that also holds the tables.  Double
words lie in one page, so one address is looked up for each; bytes are looked up one by one.
-/

namespace PageTables

/-- The double word at `va`; `none` is a page fault. -/
def loadLinear (mem : BitMemory) (dir : Nat) (va : BitVec 32) : Option (BitVec 32) :=
  (translate mem dir va).map mem.word32

def storeLinear (mem : BitMemory) (dir : Nat) (va v : BitVec 32) : Option BitMemory :=
  (translate mem dir va).map fun addr ↦ mem.store32 addr v

/-- `count` bytes from `va` on, each through the tables. -/
def loadBytes (mem : BitMemory) (dir : Nat) : Nat → BitVec 32 → Option (List (BitVec 8))
  | 0, _ => some []
  | count + 1, va => (translate mem dir va).bind fun addr ↦
      (loadBytes mem dir count (va + 1#32)).map (mem.byte addr :: ·)

/-- The page tables that the directory names lie between `lo` and `hi`. -/
def TablesWithin (mem : BitMemory) (dir lo hi : Nat) : Prop :=
  ∀ i < 1024, present (entry mem dir i) = true →
    lo ≤ frame (entry mem dir i) ∧ frame (entry mem dir i) + 4096 ≤ hi

/-- The tables lead from linear addresses to physical ones as `f` says. -/
structure Maps (mem : BitMemory) (dir lo hi : Nat) (f : BitVec 32 → Option Nat) : Prop where
  within : TablesWithin mem dir lo hi
  translate : ∀ va, translate mem dir va = f va

/-- The directory, and what lies between `lo` and `hi`, are the same in both memories. -/
structure SameTables (mem mem' : BitMemory) (dir lo hi : Nat) : Prop where
  directory : ∀ n, 8 * dir ≤ n → n < 8 * (dir + 4096) → mem' n = mem n
  tables : ∀ n, 8 * lo ≤ n → n < 8 * hi → mem' n = mem n

section

variable {mem mem' : BitMemory} {dir lo hi : Nat} {va v : BitVec 32}

theorem loadLinear_eq {addr : Nat} (h : translate mem dir va = some addr) :
    loadLinear mem dir va = some (mem.word32 addr) := by
  rw [loadLinear, h, Option.map_some]

theorem storeLinear_eq {addr : Nat} (h : translate mem dir va = some addr) :
    storeLinear mem dir va v = some (mem.store32 addr v) := by
  rw [storeLinear, h, Option.map_some]

/-- Bytes that are mapped one after the other. -/
theorem loadBytes_eq {count addr : Nat}
    (h : ∀ j < count, translate mem dir (va + BitVec.ofNat 32 j) = some (addr + j)) :
    loadBytes mem dir count va = some (mem.bytes addr count) := by
  induction count generalizing va addr with
  | zero => rfl
  | succ count ih =>
    have hfirst := h 0 (Nat.succ_pos _)
    rw [BitVec.add_zero] at hfirst
    have hrest := @ih (va + 1#32) (addr + 1) fun j hj ↦ by
      have hnext := h (j + 1) (Nat.succ_lt_succ hj)
      rwa [Nat.add_comm j 1, BitVec.ofNat_add, ← BitVec.add_assoc, ← Nat.add_assoc] at hnext
    rw [loadBytes, hfirst, Option.bind_some, hrest, Option.map_some]
    rfl

/-! ## The same tables -/

theorem SameTables.entry_eq (h : SameTables mem mem' dir lo hi) {i : Nat} (hi : i < 1024) :
    entry mem' dir i = entry mem dir i :=
  BitMemory.word32_congr fun _ hj ↦ h.directory _ (by omega) (by omega)

theorem SameTables.tablesWithin (h : SameTables mem mem' dir lo hi)
    (hin : TablesWithin mem dir lo hi) : TablesWithin mem' dir lo hi := by
  intro i hi hpresent
  rw [h.entry_eq hi] at hpresent ⊢
  exact hin i hi hpresent

/-- A walk reads the directory and one table. -/
theorem SameTables.translate_eq (h : SameTables mem mem' dir lo hi)
    (hin : TablesWithin mem dir lo hi) (va : BitVec 32) :
    translate mem' dir va = translate mem dir va := by
  have hva := va.isLt
  have hslot : va.toNat / 2 ^ 22 < 1024 := by omega
  unfold translate walk
  dsimp only
  rw [h.entry_eq hslot]
  split
  next hpresent =>
    obtain ⟨hlo, hhi⟩ := hin _ hslot hpresent
    have hpte : entry mem' (frame (entry mem dir (va.toNat / 2 ^ 22))) (va.toNat / 4096 % 1024) =
        entry mem (frame (entry mem dir (va.toNat / 2 ^ 22))) (va.toNat / 4096 % 1024) :=
      BitMemory.word32_congr fun _ hj ↦ h.tables _ (by omega) (by omega)
    rw [hpte]
  next => rfl

-- A word apart from the tables.
theorem sameTables_store32 {addr : Nat} (hdir : addr + 4 ≤ dir ∨ dir + 4096 ≤ addr)
    (htables : addr + 4 ≤ lo ∨ hi ≤ addr) : SameTables mem (mem.store32 addr v) dir lo hi :=
  ⟨fun _ _ _ ↦ BitMemory.store32_of_outside (by omega),
    fun _ _ _ ↦ BitMemory.store32_of_outside (by omega)⟩

/-! ## What is mapped -/

section

variable {f : BitVec 32 → Option Nat}

theorem Maps.of_sameTables (h : Maps mem dir lo hi f) (hsame : SameTables mem mem' dir lo hi) :
    Maps mem' dir lo hi f := by
  refine ⟨hsame.tablesWithin h.within, fun va ↦ ?_⟩
  rw [hsame.translate_eq h.within, h.translate]

theorem Maps.store32 {addr : Nat} (h : Maps mem dir lo hi f)
    (hdir : addr + 4 ≤ dir ∨ dir + 4096 ≤ addr) (htables : addr + 4 ≤ lo ∨ hi ≤ addr) :
    Maps (mem.store32 addr v) dir lo hi f :=
  h.of_sameTables (sameTables_store32 hdir htables)

theorem Maps.load {addr : Nat} (h : Maps mem dir lo hi f) (hva : f va = some addr) :
    loadLinear mem dir va = some (mem.word32 addr) :=
  loadLinear_eq ((h.translate va).trans hva)

theorem Maps.store {addr : Nat} (h : Maps mem dir lo hi f) (hva : f va = some addr) :
    storeLinear mem dir va v = some (mem.store32 addr v) :=
  storeLinear_eq ((h.translate va).trans hva)

end

/-! ## The entries of a table -/

end

end PageTables
