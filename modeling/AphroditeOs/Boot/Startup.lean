import AphroditeOs.Boot.SetupPaging
import AphroditeOs.Boot.Tables
import AphroditeOs.Lib.Linear
import AphroditeOs.Trap.Gates

/-!
# `startup_32` (`boot/head.S`)

Before paging is on, addresses are physical: the processor clears `.bss`, in which the page directory
is, and builds the page tables.  After it all accesses go through these tables, at 3 GB: the stack,
the interrupt descriptor table, and what is handed to `start_kernel`.
-/

namespace AphroditeOs

open PageTables

/-- Where the linker puts the names of `head.S`.  Data has its physical address here, which is
`__PAGE_OFFSET` below that of the name. -/
structure HeadSymbols where
  stackStart : Word
  mbi : Word
  idtTable : Word
  initThreadUnion : Word
  initPgTablesEnd : Word
  bssStart : Word
  bssStop : Word
  swapperPgDir : Word
  pg0 : Word
  handlers : Handlers
  -- behind the two calls
  setupIdtReturn : Word
  startKernelReturn : Word

/-- The order of the link script. -/
structure HeadSymbols.Linked (y : HeadSymbols) : Prop where
  stackStart : 4 ∣ y.stackStart.toNat
  mbi : y.stackStart.toNat + 8 ≤ y.mbi.toNat ∧ 4 ∣ y.mbi.toNat
  idtTable : y.mbi.toNat + 4 ≤ y.idtTable.toNat ∧ 4096 ∣ y.idtTable.toNat
  initThreadUnion : y.idtTable.toNat + 2048 ≤ y.initThreadUnion.toNat ∧
    8192 ∣ y.initThreadUnion.toNat
  initPgTablesEnd : y.initThreadUnion.toNat + 8192 ≤ y.initPgTablesEnd.toNat ∧
    4 ∣ y.initPgTablesEnd.toNat
  bssStart : y.initPgTablesEnd.toNat + 4 ≤ y.bssStart.toNat
  swapperPgDir : y.bssStart.toNat ≤ y.swapperPgDir.toNat ∧ 4096 ∣ y.swapperPgDir.toNat
  bssStop : y.swapperPgDir.toNat + 4096 ≤ y.bssStop.toNat ∧
    4 ∣ y.bssStop.toNat - y.bssStart.toNat
  pg0 : y.bssStop.toNat ≤ y.pg0.toNat ∧ 4096 ∣ y.pg0.toNat

/-- The linear address `n` bytes above the bottom of the stack. -/
def HeadSymbols.slot (y : HeadSymbols) (n : Nat) : Word :=
  va (y.initThreadUnion + BitVec.ofNat 32 n)

/-- The two `movl` that put a gate into the table. -/
def storeGate (dir : Nat) (d : DescStruct) (addr : Word) (mem : BitMemory) : Option BitMemory :=
  (storeLinear mem dir addr d.a).bind fun mem ↦ storeLinear mem dir (addr + 4#32) d.b

namespace Startup

/-! ## Physical addresses -/

/-- Up to the switch, for the pointer in `ebx`: the number of page tables, and memory. -/
def clearAndMap (y : HeadSymbols) (ebx : Word) (mem : BitMemory) : Option (Nat × BitMemory) :=
  let mem := mem.store32 y.mbi.toNat ebx
  let ecx := (y.bssStop - y.bssStart) >>> 2
  let mem := repStosd 0#32 ecx.toNat y.bssStart mem
  (initPageTables y.pg0 y.swapperPgDir mem).map fun (k, s) ↦
    (k, s.mem.store32 y.initPgTablesEnd.toNat s.edi)

/-! ## Linear addresses -/

/-- The stack pointer, and memory. -/
abbrev StackMemory := Word × BitMemory

def pushl (dir : Nat) (v : Word) (s : StackMemory) : Option StackMemory :=
  let esp := s.1 - 4#32
  (storeLinear s.2 dir esp v).map fun mem ↦ (esp, mem)

/-- `rp_sidt`, with the count in `ecx`. -/
def rpSidt (dir : Nat) (eax edx : Word) : Nat → Word → BitMemory → Option BitMemory
  | 0, _, mem => some mem
  | ecx + 1, edi, mem =>
    (storeGate dir ⟨eax, edx⟩ edi mem).bind fun mem ↦ rpSidt dir eax edx ecx (edi + 8#32) mem

def setupIdt (y : HeadSymbols) (mem : BitMemory) : Option BitMemory :=
  let edx := y.handlers.ignoreInt
  let eax := movw edx (kernelCs <<< 16)
  let edx := movw 0x8E00#32 edx
  rpSidt y.swapperPgDir.toNat eax edx 256 (va y.idtTable) mem

/-- `call setup_idt` and its `ret`, which has to find its own return address. -/
def callSetupIdt (y : HeadSymbols) (s : StackMemory) : Option StackMemory :=
  let dir := y.swapperPgDir.toNat
  (pushl dir y.setupIdtReturn s).bind fun s ↦
    (setupIdt y s.2).bind fun mem ↦
      (loadLinear mem dir s.1).bind fun eip ↦
        if eip = y.setupIdtReturn then some (s.1 + 4#32, mem) else none

def bootloaderMagic : Word := 0x2BADB002#32

/-- From the far jump behind the switch to the first instruction of `start_kernel`. -/
def enterKernel (y : HeadSymbols) (mem : BitMemory) : Option StackMemory :=
  let dir := y.swapperPgDir.toNat
  (loadLinear mem dir (va y.stackStart)).bind fun esp ↦
    (pushl dir 0#32 (esp, mem)).bind fun s ↦
      -- `popfl`
      (callSetupIdt y (s.1 + 4#32, s.2)).bind fun s ↦
        (loadLinear s.2 dir (va y.mbi)).bind fun ebx ↦
          (pushl dir ebx s).bind fun s ↦
            (pushl dir bootloaderMagic s).bind fun s ↦ pushl dir y.startKernelReturn s

/-- `startup_32`: the number of page tables, and what `start_kernel` finds. -/
def startup32 (y : HeadSymbols) (ebx : Word) (mem : BitMemory) : Option (Nat × StackMemory) :=
  (clearAndMap y ebx mem).bind fun (k, mem) ↦ (enterKernel y mem).map fun s ↦ (k, s)

end Startup

/-- The descriptors in memory, from a physical address on. -/
def idtAt (mem : BitMemory) (base : Nat) : IdtTable := fun v ↦
  ⟨mem.word32 (base + 8 * v), mem.word32 (base + 8 * v + 4)⟩

/-- What `k` tables map: the first `k` times 4 MB, at their own addresses and at 3 GB. -/
def windowTranslate (k : Nat) (v : Word) : Option Nat :=
  if v.toNat < 2 ^ 22 * k then some v.toNat
  else if 3 * 2 ^ 30 ≤ v.toNat ∧ v.toNat < 3 * 2 ^ 30 + 2 ^ 22 * k then some (v.toNat - 3 * 2 ^ 30)
  else none

/-- Memory in which the directory leads to these windows and nowhere else. -/
abbrev BootMapped (y : HeadSymbols) (k : Nat) (mem : BitMemory) : Prop :=
  Maps mem y.swapperPgDir.toNat y.pg0.toNat (y.pg0.toNat + 4096 * k) (windowTranslate k)

/-- A byte that is in none of what is written up to the switch. -/
structure HeadSymbols.KeptByClear (y : HeadSymbols) (k a : Nat) : Prop where
  bss : a < y.bssStart.toNat ∨ y.bssStop.toNat ≤ a
  tables : a < y.pg0.toNat ∨ y.pg0.toNat + 4096 * k ≤ a
  mbi : a < y.mbi.toNat ∨ y.mbi.toNat + 4 ≤ a
  initPgTablesEnd : a < y.initPgTablesEnd.toNat ∨ y.initPgTablesEnd.toNat + 4 ≤ a

/-- And behind it: the descriptor table, and three words at the top of the stack. -/
structure HeadSymbols.Kept (y : HeadSymbols) (k a : Nat) : Prop extends y.KeptByClear k a where
  idtTable : a < y.idtTable.toNat ∨ y.idtTable.toNat + 2048 ≤ a
  stack : a < y.initThreadUnion.toNat + 8180 ∨ y.initThreadUnion.toNat + 8192 ≤ a

section

variable {pg0 swapperPgDir : Word} {mem : BitMemory} {k n : Nat} {s : HeadState}

/-- An entry of the directory, which was clear before. -/
theorem HeadAfter.entry_eq (h : HeadAfter pg0 swapperPgDir mem k s)
    (hclear : ∀ i < 1024, entry mem swapperPgDir.toNat i = 0#32) {i : Nat} (hi : i < 1024) :
    entry s.mem swapperPgDir.toNat i =
      if i < k then headTable pg0 i
      else if 768 ≤ i ∧ i < 768 + k then headTable pg0 (i - 768) else 0#32 := by
  split_ifs with hlow hhigh
  · exact h.windows.low i hlow
  · have hentry := h.windows.high (i - 768) (by omega)
    rwa [Nat.add_sub_cancel' hhigh.1] at hentry
  · rw [h.rest i hi (by omega) (by omega), hclear i hi]

theorem HeadAfter.tablesWithin (hlink : TablesLinked pg0 swapperPgDir) (hpg0 : pg0.toNat ≤ 2 ^ 30)
    (hk : k ≤ 256) (h : HeadAfter pg0 swapperPgDir mem k s)
    (hclear : ∀ i < 1024, entry mem swapperPgDir.toNat i = 0#32) :
    TablesWithin s.mem swapperPgDir.toNat pg0.toNat (pg0.toNat + 4096 * k) := by
  intro i hi hpresent
  rw [h.entry_eq hclear hi] at hpresent ⊢
  split_ifs at hpresent ⊢ with hlow hhigh
  · rw [frame_headTable hlink hpg0 (by omega)]
    omega
  · rw [frame_headTable hlink hpg0 (by omega)]
    omega
  · exact absurd hpresent (by decide)

end

/-! ## Memory at the switch -/

section

variable {y : HeadSymbols} {ebx : Word} {mem mem' : BitMemory} {k n : Nat}

theorem BootMapped.store32 {addr : Nat} {v : Word} (h : BootMapped y k mem) (hlink : y.Linked)
    (haddr : addr + 4 ≤ y.swapperPgDir.toNat) : BootMapped y k (mem.store32 addr v) := by
  have hstop := hlink.bssStop
  have hpg0 := hlink.pg0
  exact Maps.store32 h (Or.inl haddr) (Or.inl (by omega))

end

/-! ## Through the tables -/

section

variable {y : HeadSymbols} {mem : BitMemory} {k : Nat} {a v : Word}

theorem windowTranslate_va (hk : k ≤ 256) (ha : a.toNat < 2 ^ 22 * k) :
    windowTranslate k (va a) = some a.toNat := by
  have hva := toNat_va (a := a) (by omega)
  rw [windowTranslate, if_neg (by omega), if_pos (by omega), hva]
  exact congrArg some (by omega)

-- The image lies below the tables' end, so it is mapped.
theorem lt_window (hlink : y.Linked) (hreach : TablesReach y.pg0 k) {n : Nat}
    (hn : n < y.swapperPgDir.toNat) : n < 2 ^ 22 * k := by
  have hstop := hlink.bssStop
  have hpg0 := hlink.pg0
  unfold TablesReach at hreach
  omega

theorem BootMapped.store_va (h : BootMapped y k mem) (hlink : y.Linked) (hk : k ≤ 256)
    (hreach : TablesReach y.pg0 k) (ha : a.toNat < y.swapperPgDir.toNat) :
    storeLinear mem y.swapperPgDir.toNat (va a) v = some (mem.store32 a.toNat v) :=
  h.store (windowTranslate_va hk (lt_window hlink hreach ha))

theorem toNat_slot (hlink : y.Linked) {n : Nat} (hn : n ≤ 8192) :
    (y.initThreadUnion + BitVec.ofNat 32 n).toNat = y.initThreadUnion.toNat + n := by
  have hend := hlink.initPgTablesEnd
  have hlt := y.initPgTablesEnd.isLt
  exact toNat_add_ofNat (by omega)

theorem slot_add (y : HeadSymbols) (n m : Nat) :
    y.slot n + BitVec.ofNat 32 m = y.slot (n + m) := by
  rw [HeadSymbols.slot, va_add, BitVec.add_assoc, ← BitVec.ofNat_add, HeadSymbols.slot]

theorem BootMapped.pushl (h : BootMapped y k mem) (hlink : y.Linked) (hk : k ≤ 256)
    (hreach : TablesReach y.pg0 k) {n m : Nat} (hnm : n + 4 = m) (hm : m ≤ 8192) :
    Startup.pushl y.swapperPgDir.toNat v (y.slot m, mem) =
      some (y.slot n, mem.store32 (y.initThreadUnion.toNat + n) v) := by
  have hend := hlink.initPgTablesEnd
  have hstart := hlink.bssStart
  have hdir := hlink.swapperPgDir
  have hslot := toNat_slot hlink (show n ≤ 8192 by omega)
  have hesp : y.slot m - 4#32 = y.slot n := by
    rw [← hnm, ← slot_add]
    exact BitVec.add_sub_cancel _ _
  unfold Startup.pushl
  dsimp only
  rw [hesp, HeadSymbols.slot, h.store_va hlink hk hreach (by omega), Option.map_some, hslot]

/-! ## The descriptor table -/

theorem idtAt_store (mem : BitMemory) (base i : Nat) (d : DescStruct) :
    idtAt ((mem.store32 (base + 8 * i) d.a).store32 (base + 8 * i + 4) d.b) base =
      Function.update (idtAt mem base) i d := by
  funext v
  rw [Function.update_apply, idtAt]
  split_ifs with hv
  · rw [hv, BitMemory.word32_store32_disjoint _ _ (by omega), BitMemory.word32_store32_self,
      BitMemory.word32_store32_self]
  · rw [BitMemory.word32_store32_disjoint _ _ (by omega),
      BitMemory.word32_store32_disjoint _ _ (by omega),
      BitMemory.word32_store32_disjoint _ _ (by omega),
      BitMemory.word32_store32_disjoint _ _ (by omega), idtAt]

theorem toNat_gate (hlink : y.Linked) {i : Nat} (hi : i < 256) :
    (y.idtTable + BitVec.ofNat 32 (8 * i)).toNat = y.idtTable.toNat + 8 * i ∧
      (y.idtTable + BitVec.ofNat 32 (8 * i) + 4#32).toNat = y.idtTable.toNat + 8 * i + 4 := by
  have hunion := hlink.initThreadUnion
  have hlt := y.initThreadUnion.isLt
  have haddr : (y.idtTable + BitVec.ofNat 32 (8 * i)).toNat = y.idtTable.toNat + 8 * i :=
    toNat_add_ofNat (by omega)
  refine ⟨haddr, ?_⟩
  rw [BitVec.toNat_add_of_lt (by rw [haddr]; show _ + 4 < _; omega), haddr]
  rfl

/-- The two stores of a gate. -/
theorem BootMapped.storeGate (h : BootMapped y k mem) (hlink : y.Linked) (hk : k ≤ 256)
    (hreach : TablesReach y.pg0 k) {i : Nat} (hi : i < 256) (d : DescStruct) :
    ∃ mem', storeGate y.swapperPgDir.toNat d (va (y.idtTable + BitVec.ofNat 32 (8 * i))) mem =
        some mem' ∧ BootMapped y k mem' ∧
      idtAt mem' y.idtTable.toNat = Function.update (idtAt mem y.idtTable.toNat) i d ∧
      ∀ a, a < y.idtTable.toNat ∨ y.idtTable.toNat + 2048 ≤ a → mem'.byte a = mem.byte a := by
  have hunion := hlink.initThreadUnion
  have hend := hlink.initPgTablesEnd
  have hstart := hlink.bssStart
  have hdir := hlink.swapperPgDir
  obtain ⟨haddr, hhigh⟩ := toNat_gate hlink hi
  have hlow := h.store32 (v := d.a) hlink (show y.idtTable.toNat + 8 * i + 4 ≤ _ by omega)
  have hboth := hlow.store32 (v := d.b) hlink (show y.idtTable.toNat + 8 * i + 4 + 4 ≤ _ by omega)
  refine ⟨_, ?_, hboth, idtAt_store mem _ i d, fun a ha ↦ ?_⟩
  · unfold AphroditeOs.storeGate
    rw [h.store_va hlink hk hreach (by omega), haddr, Option.bind_some, va_add,
      hlow.store_va hlink hk hreach (by omega), hhigh]
  · rw [BitMemory.byte_store32_of_outside (by omega), BitMemory.byte_store32_of_outside (by omega)]

end

end AphroditeOs
