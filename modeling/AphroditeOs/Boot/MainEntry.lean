import AphroditeOs.Boot.SetupPaging
import AphroditeOs.Lib.Linear
import AphroditeOs.Loader.Chain
import AphroditeOs.Trap.Served

/-!
# `startup32` (`boot/head.s`)

The kernel is linked at 0 and entered there.  `startup32` fills the descriptor table, copies the boot
parameters, turns paging on, and reloads the segments from a table of its own, whose segments begin
at 3 GB; `main` is called with the same offsets as before.
-/

namespace AphroditeOs

open PageTables

/-! ## Segments -/

/-- The last offset of a segment, with the granularity in the attributes. -/
def SegmentDescriptor.lastOffset (d : SegmentDescriptor) : Nat :=
  if d.attr.getLsbD 15 then d.limit.toNat * 4096 + 4095 else d.limit.toNat

/-- The linear address of an offset, if the segment has it. -/
def SegmentDescriptor.linear (d : SegmentDescriptor) (off : Word) : Option Word :=
  if off.toNat ≤ d.lastOffset then some (d.base + off) else none

/-- The physical address of an offset. -/
def SegmentDescriptor.physical (d : SegmentDescriptor) (mem : BitMemory) (dir : Nat) (off : Word) :
    Option Nat :=
  (d.linear off).bind (translate mem dir)

/-- A descriptor of the global table, through the page tables. -/
def loadSegment (mem : BitMemory) (dir : Nat) (gdtr : Word) (selector : BitVec 16) :
    Option SegmentDescriptor :=
  (loadBytes mem dir 8 (gdtr + BitVec.ofNat 32 (selector.toNat / 8 * 8))).bind decodeSegment

/-- The two double words of eight bytes. -/
def descOfBytes : List Byte → Option DescStruct
  | [b0, b1, b2, b3, b4, b5, b6, b7] => some ⟨b3 ++ b2 ++ b1 ++ b0, b7 ++ b6 ++ b5 ++ b4⟩
  | _ => none

/-- The gate of a vector, through the page tables a byte at a time: `_idt` need not be aligned. -/
def loadGate (mem : BitMemory) (dir : Nat) (idtr : Word) (vector : Nat) : Option Gate :=
  (loadBytes mem dir 8 (idtr + BitVec.ofNat 32 (8 * vector))).bind fun bytes ↦
    (descOfBytes bytes).map decodeGate

/-- The gates are those that the processor finds through the page tables. -/
def Platform.ReadsIdt (P : Platform) (mem : BitMemory) (dir : Nat) (idtr : Word) : Prop :=
  ∀ v < 256, loadGate mem dir idtr v = some (decodeGate (P.idt v))

namespace HeadS

/-! ## `startup32` -/

def kernelCs : BitVec 16 := 0x10#16

def kernelDs : BitVec 16 := 0x18#16

/-- The first four entries of `_gdt`. -/
def gdtBytes : List Byte :=
  gdtDesc 0#64 0#64 0#64 ++ gdtDesc 0#64 0#64 0#64 ++
  gdtDesc 0x3FFFF#64 0xC0000000#64 0xC09A#64 ++ gdtDesc 0x3FFFF#64 0xC0000000#64 0xC092#64

/-- Where the linker puts the labels; `ret` goes back to the other three. -/
structure Labels where
  tripleInterrupt : Word
  idt : Word
  gdt : Word
  userStack : Word
  initIdtReturn : Word
  setupPagingReturn : Word
  mainReturn : Word

/-- The tables are behind the pages of `setup_paging`.  The stack grows down from `user_stack`, which
is aligned, and the kernel ends below the boot sector's copy. -/
structure Labels.Linked (y : Labels) : Prop where
  idt : 0x6000 ≤ y.idt.toNat
  gdt : y.idt.toNat + 2048 ≤ y.gdt.toNat
  userStack : y.gdt.toNat + 1088 + 20 ≤ y.userStack.toNat ∧ 4 ∣ y.userStack.toNat
  fits : y.userStack.toNat ≤ 0x90000

/-- The registers that the procedures save. -/
structure Saved where
  ebp : Word
  ebx : Word
  ecx : Word
  edi : Word

/-- `push` before paging is on. -/
def push (v : Word) (s : Word × BitMemory) : Word × BitMemory :=
  let esp := s.1 - 4#32
  (esp, s.2.store32 esp.toNat v)

/-- `INIT_IDT`, with the count in `ecx`. -/
def initIdtLoop (ebx eax : Word) : Nat → Word → BitMemory → BitMemory
  | 0, _, mem => mem
  | ecx + 1, edi, mem =>
    initIdtLoop ebx eax ecx (edi + 8#32)
      ((mem.store32 edi.toNat ebx).store32 (edi + 4#32).toNat eax)

def initIdt (y : Labels) (mem : BitMemory) : BitMemory :=
  let eax := y.tripleInterrupt
  let ebx := movw eax 0x0800#32
  let eax := movw 0x8E00#32 eax
  initIdtLoop ebx eax 256 y.idt mem

/-- `call init_idt`: `ebp` as it is popped, and memory. -/
def callInitIdt (y : Labels) (r : Saved) (mem : BitMemory) : Option (Word × BitMemory) :=
  let s := push y.initIdtReturn (y.userStack, mem)
  let s := push r.edi (push r.ecx (push r.ebx (push r.ebp s)))
  let mem := initIdt y s.2
  let ebp := mem.word32 (s.1 + 12#32).toNat
  let eip := mem.word32 (s.1 + 16#32).toNat
  if eip = y.initIdtReturn then some (ebp, mem) else none

/-- `call setup_paging`, whose `leave` and `ret` go through the page tables. -/
def callSetupPaging (y : Labels) (ebp : Word) (mem : BitMemory) : Option BitMemory :=
  let s := push ebp (push y.setupPagingReturn (y.userStack, mem))
  (setupPaging s.2).bind fun mem ↦
    (loadLinear mem pde.toNat s.1).bind fun _ ↦
      (loadLinear mem pde.toNat (s.1 + 4#32)).bind fun eip ↦
        if eip = y.setupPagingReturn then some mem else none

/-- `push` in the segment `d`. -/
def pushIn (d : SegmentDescriptor) (v : Word) (s : Word × BitMemory) : Option (Word × BitMemory) :=
  let esp := s.1 - 4#32
  (d.linear esp).bind fun lin ↦ (storeLinear s.2 pde.toNat lin v).map fun mem ↦ (esp, mem)

/-- What `main` is entered with. -/
structure MainEntry where
  cs : SegmentDescriptor
  ds : SegmentDescriptor
  esp : Word
  mem : BitMemory

/-- From `lgdt` to `call main`. -/
def enterMain (y : Labels) (mem : BitMemory) : Option MainEntry :=
  let gdtr := 0xC0000000#32 + y.gdt
  (loadSegment mem pde.toNat gdtr kernelCs).bind fun cs ↦
    (loadSegment mem pde.toNat gdtr kernelDs).bind fun ds ↦
      (pushIn ds 0#32 (y.userStack, mem)).bind fun s ↦
        (pushIn ds 0#32 s).bind fun s ↦
          (pushIn ds 0#32 s).bind fun s ↦
            (pushIn ds y.mainReturn s).map fun s ↦ ⟨cs, ds, s.1, s.2⟩

def startup32 (y : Labels) (r : Saved) (mem : BitMemory) : Option MainEntry :=
  (callInitIdt y r mem).bind fun s ↦
    (callSetupPaging y s.1 (copyBootParameters s.2)).bind (enterMain y)

/-- What the offsets of `main` stand for.  `gdt_desc` makes segments of 4 GB, so that behind 1 GB they
come round to the low window. -/
def kernelPhysical (off : Word) : Option Nat :=
  if off.toNat < 2 ^ 22 then some off.toNat
  else if 2 ^ 30 ≤ off.toNat ∧ off.toNat < 2 ^ 30 + 2 ^ 22 then some (off.toNat - 2 ^ 30)
  else none

/-- A gate whose selector is null. -/
def nullGate (offset : Word) : Gate := ⟨offset, 0#16, 0#2, 14#5, true⟩

/-- A byte that `startup32` does not write: it is in none of the two page tables, the parameter page,
the descriptor tables and the stack. -/
structure Labels.Kept (y : Labels) (a : Nat) : Prop where
  tables : a < 0x1000 ∨ 0x3000 ≤ a
  parameters : a < 0x5000 ∨ 0x5800 ≤ a
  idt : a < y.idt.toNat ∨ y.idt.toNat + 2048 ≤ a
  -- the processor marks the entries that it loads as accessed
  gdt : a < y.gdt.toNat ∨ y.gdt.toNat + 32 ≤ a
  stack : a < y.userStack.toNat - 20 ∨ y.userStack.toNat ≤ a

/-- What `main` finds, for the memory `mem` that the loader has left. -/
structure MainEntered (y : Labels) (mem : BitMemory) (t : MainEntry) : Prop where
  code : ∀ off, t.cs.physical t.mem pde.toNat off = kernelPhysical off
  data : ∀ off, t.ds.physical t.mem pde.toNat off = kernelPhysical off
  access : t.cs.attr = 0xC09A#16 ∧ t.ds.attr = 0xC092#16
  esp : t.esp = y.userStack - 16#32
  parameters : ∀ i < 512, t.mem.word32 (0x5000 + 4 * i) = mem.word32 (0x90000 + 4 * i)
  gates : ∀ v < 256, loadGate t.mem pde.toNat y.idt v = some (nullGate y.tripleInterrupt)
  frame : ∀ a, y.Kept a → t.mem.byte a = mem.byte a

/-! ## Memory before paging -/

section

variable {y : Labels} {mem : BitMemory} {ebx eax : Word}

theorem initIdtLoop_spec (hlink : y.Linked) {count i : Nat} (hcount : i + count ≤ 256)
    (mem : BitMemory) :
    (∀ v, i ≤ v → v < i + count →
      (initIdtLoop ebx eax count (y.idt + BitVec.ofNat 32 (8 * i)) mem).word32
          (y.idt.toNat + 8 * v) = ebx ∧
        (initIdtLoop ebx eax count (y.idt + BitVec.ofNat 32 (8 * i)) mem).word32
          (y.idt.toNat + 8 * v + 4) = eax) ∧
      ∀ a, a < y.idt.toNat + 8 * i ∨ y.idt.toNat + 2048 ≤ a →
        (initIdtLoop ebx eax count (y.idt + BitVec.ofNat 32 (8 * i)) mem).byte a = mem.byte a := by
  induction count generalizing i mem with
  | zero => exact ⟨fun v hv hv' ↦ by omega, fun _ _ ↦ rfl⟩
  | succ count ih =>
    have hgdt := hlink.gdt
    have hstack := hlink.userStack
    have hfits := hlink.fits
    have haddr : (y.idt + BitVec.ofNat 32 (8 * i)).toNat = y.idt.toNat + 8 * i :=
      toNat_add_ofNat (by omega)
    have hhigh : (y.idt + BitVec.ofNat 32 (8 * i) + 4#32).toNat = y.idt.toNat + 8 * i + 4 := by
      rw [BitVec.toNat_add_of_lt (by rw [haddr]; show _ + 4 < _; omega), haddr]
      rfl
    have hnext : y.idt + BitVec.ofNat 32 (8 * i) + 8#32 =
        y.idt + BitVec.ofNat 32 (8 * (i + 1)) := by
      rw [Nat.mul_succ, BitVec.ofNat_add, BitVec.add_assoc]
    obtain ⟨hrest, hframe⟩ := @ih (i + 1) (by omega)
      ((mem.store32 (y.idt.toNat + 8 * i) ebx).store32 (y.idt.toNat + 8 * i + 4) eax)
    rw [initIdtLoop, haddr, hhigh, hnext]
    refine ⟨fun v hv hv' ↦ ?_, fun a ha ↦ ?_⟩
    · rcases Nat.eq_or_lt_of_le hv with rfl | hlt
      · -- the later gates are behind this one
        rw [BitMemory.word32_congr_byte fun a _ _ ↦ hframe a (by omega),
          BitMemory.word32_congr_byte fun a _ _ ↦ hframe a (by omega),
          BitMemory.word32_store32_disjoint _ _ (by omega), BitMemory.word32_store32_self,
          BitMemory.word32_store32_self]
        exact ⟨rfl, rfl⟩
      · exact hrest v hlt (by omega)
    · rw [hframe a (by omega), BitMemory.byte_store32_of_outside (by omega),
        BitMemory.byte_store32_of_outside (by omega)]

theorem byte_repMovsd_of_outside {ecx esi edi a : Nat} (mem : BitMemory)
    (h : a < edi ∨ edi + 4 * ecx ≤ a) : (repMovsd ecx esi edi mem).byte a = mem.byte a := by
  induction ecx generalizing esi edi mem with
  | zero => rfl
  | succ ecx ih =>
    rw [repMovsd, ih _ (by omega), BitMemory.byte_store32_of_outside (by omega)]

end

theorem toNat_sub_four {x : Word} (hx : 4 ≤ x.toNat) : (x - 4#32).toNat = x.toNat - 4 :=
  BitVec.toNat_sub_of_le (BitVec.le_def.mpr hx)

theorem initIdt_spec (hlink : y.Linked) (mem : BitMemory) :
    (∀ v < 256, (initIdt y mem).word32 (y.idt.toNat + 8 * v) = movw y.tripleInterrupt 0x0800#32 ∧
      (initIdt y mem).word32 (y.idt.toNat + 8 * v + 4) = movw 0x8E00#32 y.tripleInterrupt) ∧
      ∀ a, a < y.idt.toNat ∨ y.idt.toNat + 2048 ≤ a → (initIdt y mem).byte a = mem.byte a := by
  obtain ⟨hgates, hframe⟩ := @initIdtLoop_spec y (movw y.tripleInterrupt 0x0800#32)
    (movw 0x8E00#32 y.tripleInterrupt) hlink 256 0 le_rfl mem
  rw [Nat.mul_zero, BitVec.add_zero] at hgates hframe
  rw [Nat.zero_add] at hgates
  unfold initIdt
  dsimp only
  exact ⟨fun v hv ↦ hgates v (Nat.zero_le v) hv, hframe⟩

/-- The call comes back with `ebp` restored. -/
theorem callInitIdt_spec (hlink : y.Linked) (r : Saved) (mem : BitMemory) :
    ∃ mem', callInitIdt y r mem = some (r.ebp, mem') ∧
      (∀ v < 256, mem'.word32 (y.idt.toNat + 8 * v) = movw y.tripleInterrupt 0x0800#32 ∧
        mem'.word32 (y.idt.toNat + 8 * v + 4) = movw 0x8E00#32 y.tripleInterrupt) ∧
      ∀ a, a < y.idt.toNat ∨ y.idt.toNat + 2048 ≤ a →
        a < y.userStack.toNat - 20 ∨ y.userStack.toNat ≤ a → mem'.byte a = mem.byte a := by
  have hgdt := hlink.gdt
  have hstack := hlink.userStack
  have hfits := hlink.fits
  obtain ⟨mem₀, hmem₀⟩ : ∃ mem₀, mem₀ = ((((mem.store32 (y.userStack.toNat - 4)
      y.initIdtReturn).store32 (y.userStack.toNat - 8) r.ebp).store32 (y.userStack.toNat - 12)
      r.ebx).store32 (y.userStack.toNat - 16) r.ecx).store32 (y.userStack.toNat - 20) r.edi := ⟨_, rfl⟩
  obtain ⟨hgates, hframe⟩ := initIdt_spec hlink mem₀
  have hword : ∀ a, y.userStack.toNat - 20 ≤ a → a + 4 ≤ y.userStack.toNat →
      (initIdt y mem₀).word32 a = mem₀.word32 a := fun a ha ha' ↦
    BitMemory.word32_congr_byte fun b _ _ ↦ hframe b (by omega)
  have hebp : (initIdt y mem₀).word32 (y.userStack.toNat - 8) = r.ebp := by
    rw [hword _ (by omega) (by omega), hmem₀, BitMemory.word32_store32_disjoint _ _ (by omega),
      BitMemory.word32_store32_disjoint _ _ (by omega),
      BitMemory.word32_store32_disjoint _ _ (by omega), BitMemory.word32_store32_self]
  have heip : (initIdt y mem₀).word32 (y.userStack.toNat - 4) = y.initIdtReturn := by
    rw [hword _ (by omega) (by omega), hmem₀, BitMemory.word32_store32_disjoint _ _ (by omega),
      BitMemory.word32_store32_disjoint _ _ (by omega),
      BitMemory.word32_store32_disjoint _ _ (by omega),
      BitMemory.word32_store32_disjoint _ _ (by omega), BitMemory.word32_store32_self]
  refine ⟨initIdt y mem₀, ?_, hgates, fun a ha ha' ↦ ?_⟩
  · have h₁ := toNat_sub_four (show 4 ≤ y.userStack.toNat by omega)
    have h₂ := toNat_sub_four (show 4 ≤ (y.userStack - 4#32).toNat by omega)
    have h₃ := toNat_sub_four (show 4 ≤ (y.userStack - 4#32 - 4#32).toNat by omega)
    have h₄ := toNat_sub_four (show 4 ≤ (y.userStack - 4#32 - 4#32 - 4#32).toNat by omega)
    have h₅ := toNat_sub_four (show 4 ≤ (y.userStack - 4#32 - 4#32 - 4#32 - 4#32).toNat by omega)
    have h₆ : (y.userStack - 4#32 - 4#32 - 4#32 - 4#32 - 4#32 + 12#32).toNat =
        y.userStack.toNat - 8 := by
      rw [BitVec.toNat_add_of_lt (by rw [h₅]; show _ + 12 < _; omega), show (12#32).toNat = 12 from rfl]
      omega
    have h₇ : (y.userStack - 4#32 - 4#32 - 4#32 - 4#32 - 4#32 + 16#32).toNat =
        y.userStack.toNat - 4 := by
      rw [BitVec.toNat_add_of_lt (by rw [h₅]; show _ + 16 < _; omega), show (16#32).toNat = 16 from rfl]
      omega
    unfold callInitIdt push
    dsimp only
    rw [h₆, h₇, h₅, h₄, h₃, h₂, h₁, Nat.sub_sub, Nat.sub_sub, Nat.sub_sub, Nat.sub_sub, ← hmem₀,
      hebp, heip, if_pos rfl]
  · rw [hframe a ha, hmem₀, BitMemory.byte_store32_of_outside (by omega),
      BitMemory.byte_store32_of_outside (by omega), BitMemory.byte_store32_of_outside (by omega),
      BitMemory.byte_store32_of_outside (by omega), BitMemory.byte_store32_of_outside (by omega)]

/-! ## Paging -/

theorem setupPagingWith_maps {jump : Word → Bool} {dir : Word}
    (hjump : ∀ k < 1024, jump (BitVec.ofNat 32 (4096 * k + 7)) = decide (0 < k))
    (hdir : 4096 ∣ dir.toNat) (hfit : dir.toNat + 8192 < 2 ^ 32) (mem : BitMemory) :
    ∃ mem', setupPagingWith jump dir (dir + 0x1000#32) mem = some mem' ∧
      Maps mem' dir.toNat (dir.toNat + 4096) (dir.toNat + 8192) bootTranslate ∧
      ∀ a, a < dir.toNat ∨ dir.toNat + 8192 ≤ a → mem'.byte a = mem.byte a := by
  obtain ⟨mem', hrun, hentries, -, hframe⟩ := setupPagingWith_entries hjump hdir hfit mem
  obtain ⟨mem'', hrun', hpaging⟩ := setupPagingWith_spec hjump hdir hfit mem
  obtain rfl := Option.some.inj (hrun.symm.trans hrun')
  refine ⟨mem', hrun, ⟨fun i hi hpresent ↦ ?_, hpaging.translate⟩, fun a ha ↦ ?_⟩
  · have htable : (dir + 0x1000#32).toNat = dir.toNat + 4096 :=
      BitVec.toNat_add_of_lt (show dir.toNat + 4096 < 2 ^ 32 by omega)
    have hflags : (7#32).toNat < 4096 := by decide
    rw [hentries i hi] at hpresent ⊢
    split_ifs at hpresent ⊢
    · rw [add_flags (by omega) hflags, frame_or_flags (by omega) hflags, htable]
      exact ⟨le_rfl, le_rfl⟩
    · exact absurd hpresent (by decide)
  · apply BitMemory.byte_congr
    intro j hj
    apply hframe
    omega

theorem setupPaging_maps (mem : BitMemory) :
    ∃ mem', setupPaging mem = some mem' ∧ Maps mem' pde.toNat 0x2000 0x3000 bootTranslate ∧
      ∀ a, a < 0x1000 ∨ 0x3000 ≤ a → mem'.byte a = mem.byte a :=
  setupPagingWith_maps (fun _ hk ↦ jge_eq hk) (show 4096 ∣ pde.toNat by decide) (by decide) mem

theorem bootTranslate_low {a : Word} (ha : a.toNat < 2 ^ 22) : bootTranslate a = some a.toNat := by
  rw [bootTranslate, if_pos (Or.inl (by omega)), Nat.mod_eq_of_lt ha]

theorem callSetupPaging_spec {y : Labels} (hlink : y.Linked) (ebp : Word) (mem : BitMemory) :
    ∃ mem', callSetupPaging y ebp mem = some mem' ∧
      Maps mem' pde.toNat 0x2000 0x3000 bootTranslate ∧
      ∀ a, a < 0x1000 ∨ 0x3000 ≤ a → a < y.userStack.toNat - 8 ∨ y.userStack.toNat ≤ a →
        mem'.byte a = mem.byte a := by
  have hidt := hlink.idt
  have hgdt := hlink.gdt
  have hstack := hlink.userStack
  have hfits := hlink.fits
  have h₁ := toNat_sub_four (show 4 ≤ y.userStack.toNat by omega)
  have h₂ := toNat_sub_four (show 4 ≤ (y.userStack - 4#32).toNat by omega)
  obtain ⟨mem', hrun, hmaps, hframe⟩ := setupPaging_maps ((mem.store32 (y.userStack.toNat - 4)
    y.setupPagingReturn).store32 (y.userStack.toNat - 8) ebp)
  have heip : mem'.word32 (y.userStack.toNat - 4) = y.setupPagingReturn := by
    rw [BitMemory.word32_congr_byte fun a _ _ ↦ hframe a (by omega),
      BitMemory.word32_store32_disjoint _ _ (by omega), BitMemory.word32_store32_self]
  refine ⟨mem', ?_, hmaps, fun a ha ha' ↦ ?_⟩
  · have hlow := bootTranslate_low (a := y.userStack - 4#32 - 4#32) (by omega)
    have hret := bootTranslate_low (a := y.userStack - 4#32) (by omega)
    unfold callSetupPaging push
    dsimp only
    rw [BitVec.sub_add_cancel, h₂, h₁, Nat.sub_sub, hrun, Option.bind_some, hmaps.load hlow,
      Option.bind_some, hmaps.load hret, h₁, heip, Option.bind_some, if_pos rfl]
  · rw [hframe a ha, BitMemory.byte_store32_of_outside (by omega),
      BitMemory.byte_store32_of_outside (by omega)]

/-! ## The segments -/

/-- A segment that begins at 3 GB and has all offsets. -/
structure KernelSegment (d : SegmentDescriptor) : Prop where
  base : d.base = 0xC0000000#32
  lastOffset : d.lastOffset = 2 ^ 32 - 1

section

variable {d : SegmentDescriptor} {mem : BitMemory} {off : Word}

theorem KernelSegment.linear_eq (h : KernelSegment d) (off : Word) :
    d.linear off = some (0xC0000000#32 + off) := by
  have hoff := off.isLt
  rw [SegmentDescriptor.linear, h.lastOffset, h.base, if_pos (by omega)]

theorem bootTranslate_kernel (off : Word) :
    bootTranslate (0xC0000000#32 + off) = kernelPhysical off := by
  have hoff := off.isLt
  have hsum : (0xC0000000#32 + off).toNat = (3 * 2 ^ 30 + off.toNat) % 2 ^ 32 := BitVec.toNat_add _ _
  unfold bootTranslate kernelPhysical
  split_ifs with hwindow hlow hbehind hlow hbehind
  · exact congrArg some (by omega)
  · exact congrArg some (by omega)
  · omega
  · omega
  · omega
  · rfl

theorem KernelSegment.physical_eq (h : KernelSegment d)
    (hmaps : Maps mem pde.toNat 0x2000 0x3000 bootTranslate) (off : Word) :
    d.physical mem pde.toNat off = kernelPhysical off := by
  rw [SegmentDescriptor.physical, h.linear_eq, Option.bind_some, hmaps.translate,
    bootTranslate_kernel]

theorem kernelPhysical_low (hoff : off.toNat < 2 ^ 22) : kernelPhysical off = some off.toNat :=
  if_pos hoff

theorem KernelSegment.pushIn_eq {v : Word} (h : KernelSegment d)
    (hmaps : Maps mem pde.toNat 0x2000 0x3000 bootTranslate) (hlow : 4 ≤ off.toNat)
    (hhigh : off.toNat ≤ 2 ^ 22) :
    pushIn d v (off, mem) = some (off - 4#32, mem.store32 (off.toNat - 4) v) := by
  have hsub := toNat_sub_four hlow
  have hphysical := kernelPhysical_low (show (off - 4#32).toNat < 2 ^ 22 by omega)
  rw [← bootTranslate_kernel] at hphysical
  unfold pushIn
  dsimp only
  rw [h.linear_eq, Option.bind_some, hmaps.store hphysical, Option.map_some, hsub]

-- Bytes below 4 MB, from 3 GB on.
theorem loadBytes_kernel {dir count : Nat} (htranslate : ∀ va, translate mem dir va = bootTranslate va)
    (hfit : off.toNat + count ≤ 2 ^ 22) :
    loadBytes mem dir count (0xC0000000#32 + off) = some (mem.bytes off.toNat count) := by
  apply loadBytes_eq
  intro j hj
  have hoff : (off + BitVec.ofNat 32 j).toNat = off.toNat + j := toNat_add_ofNat (by omega)
  rw [BitVec.add_assoc, htranslate, bootTranslate_kernel, kernelPhysical_low (by omega), hoff]

theorem loadSegment_eq {dir : Nat} {gdt : Word} {table : List Byte}
    (htranslate : ∀ va, translate mem dir va = bootTranslate va)
    (hgdt : gdt.toNat + table.length ≤ 2 ^ 22) (hbytes : mem.bytes gdt.toNat table.length = table)
    {selector : BitVec 16} (hselector : selector.toNat / 8 * 8 + 8 ≤ table.length) :
    loadSegment mem dir (0xC0000000#32 + gdt) selector =
      decodeSegment ((table.drop (selector.toNat / 8 * 8)).take 8) := by
  have hoff : (gdt + BitVec.ofNat 32 (selector.toNat / 8 * 8)).toNat =
      gdt.toNat + selector.toNat / 8 * 8 :=
    toNat_add_ofNat (by omega)
  have hpiece : mem.bytes (gdt.toNat + selector.toNat / 8 * 8) 8 =
      (table.drop (selector.toNat / 8 * 8)).take 8 := by
    conv_rhs => rw [← hbytes, BitMemory.drop_bytes, BitMemory.take_bytes _ (by omega)]
  rw [loadSegment, BitVec.add_assoc, loadBytes_kernel htranslate (by omega), Option.bind_some, hoff,
    hpiece]

theorem kernelSegment_decoded (attr : BitVec 16) (hattr : attr.getLsbD 15 = true) :
    KernelSegment ⟨0xFFFFF#20, 0xC0000000#32, attr⟩ := by
  refine ⟨rfl, ?_⟩
  unfold SegmentDescriptor.lastOffset
  rw [if_pos hattr]
  dsimp only
  decide

theorem enterMain_spec {y : Labels} (hlink : y.Linked)
    (hmaps : Maps mem pde.toNat 0x2000 0x3000 bootTranslate)
    (hgdt : mem.bytes y.gdt.toNat 32 = gdtBytes) :
    ∃ t, enterMain y mem = some t ∧ Maps t.mem pde.toNat 0x2000 0x3000 bootTranslate ∧
      t.cs = ⟨0xFFFFF#20, 0xC0000000#32, 0xC09A#16⟩ ∧
      t.ds = ⟨0xFFFFF#20, 0xC0000000#32, 0xC092#16⟩ ∧ t.esp = y.userStack - 16#32 ∧
      ∀ a, a < y.userStack.toNat - 16 ∨ y.userStack.toNat ≤ a → t.mem.byte a = mem.byte a := by
  have hidt := hlink.idt
  have hbehind := hlink.gdt
  have hstack := hlink.userStack
  have hfits := hlink.fits
  have hroom : y.gdt.toNat + gdtBytes.length ≤ 2 ^ 22 := by
    rw [show gdtBytes.length = 32 from rfl]
    omega
  have hcs : loadSegment mem pde.toNat (0xC0000000#32 + y.gdt) kernelCs =
      some ⟨0xFFFFF#20, 0xC0000000#32, 0xC09A#16⟩ :=
    (loadSegment_eq hmaps.translate hroom hgdt
      (show kernelCs.toNat / 8 * 8 + 8 ≤ gdtBytes.length by decide)).trans (by decide)
  have hds : loadSegment mem pde.toNat (0xC0000000#32 + y.gdt) kernelDs =
      some ⟨0xFFFFF#20, 0xC0000000#32, 0xC092#16⟩ :=
    (loadSegment_eq hmaps.translate hroom hgdt
      (show kernelDs.toNat / 8 * 8 + 8 ≤ gdtBytes.length by decide)).trans (by decide)
  have hseg := kernelSegment_decoded 0xC092#16 (by decide)
  have hkeep : ∀ (m : BitMemory) (a : Nat) (v : Word), 0x3000 ≤ a →
      Maps m pde.toNat 0x2000 0x3000 bootTranslate →
      Maps (m.store32 a v) pde.toNat 0x2000 0x3000 bootTranslate := fun m a v ha h ↦
    h.store32 (Or.inr (show 0x1000 + 4096 ≤ a by omega)) (Or.inr ha)
  have h₁ := toNat_sub_four (show 4 ≤ y.userStack.toNat by omega)
  have h₂ := toNat_sub_four (show 4 ≤ (y.userStack - 4#32).toNat by omega)
  have h₃ := toNat_sub_four (show 4 ≤ (y.userStack - 4#32 - 4#32).toNat by omega)
  obtain ⟨mem₁, hmem₁⟩ : ∃ m, m = mem.store32 (y.userStack.toNat - 4) 0#32 := ⟨_, rfl⟩
  obtain ⟨mem₂, hmem₂⟩ : ∃ m, m = mem₁.store32 ((y.userStack - 4#32).toNat - 4) 0#32 := ⟨_, rfl⟩
  obtain ⟨mem₃, hmem₃⟩ : ∃ m, m = mem₂.store32 ((y.userStack - 4#32 - 4#32).toNat - 4) 0#32 :=
    ⟨_, rfl⟩
  obtain ⟨mem₄, hmem₄⟩ : ∃ m, m =
      mem₃.store32 ((y.userStack - 4#32 - 4#32 - 4#32).toNat - 4) y.mainReturn := ⟨_, rfl⟩
  have hm₁ : Maps mem₁ pde.toNat 0x2000 0x3000 bootTranslate := by
    rw [hmem₁]
    exact hkeep _ _ _ (by omega) hmaps
  have hm₂ : Maps mem₂ pde.toNat 0x2000 0x3000 bootTranslate := by
    rw [hmem₂]
    exact hkeep _ _ _ (by omega) hm₁
  have hm₃ : Maps mem₃ pde.toNat 0x2000 0x3000 bootTranslate := by
    rw [hmem₃]
    exact hkeep _ _ _ (by omega) hm₂
  have hm₄ : Maps mem₄ pde.toNat 0x2000 0x3000 bootTranslate := by
    rw [hmem₄]
    exact hkeep _ _ _ (by omega) hm₃
  refine ⟨⟨⟨0xFFFFF#20, 0xC0000000#32, 0xC09A#16⟩, ⟨0xFFFFF#20, 0xC0000000#32, 0xC092#16⟩,
    y.userStack - 4#32 - 4#32 - 4#32 - 4#32, mem₄⟩, ?_, hm₄, rfl, rfl, ?_, fun a ha ↦ ?_⟩
  · unfold enterMain
    dsimp only
    rw [hcs, Option.bind_some, hds, Option.bind_some, hseg.pushIn_eq hmaps (by omega) (by omega),
      ← hmem₁, Option.bind_some, hseg.pushIn_eq hm₁ (by omega) (by omega), ← hmem₂,
      Option.bind_some, hseg.pushIn_eq hm₂ (by omega) (by omega), ← hmem₃, Option.bind_some,
      hseg.pushIn_eq hm₃ (by omega) (by omega), ← hmem₄, Option.map_some]
  · rw [sub_sub, sub_sub, sub_sub]
    rfl
  · dsimp only
    rw [hmem₄, BitMemory.byte_store32_of_outside (by omega), hmem₃,
      BitMemory.byte_store32_of_outside (by omega), hmem₂,
      BitMemory.byte_store32_of_outside (by omega), hmem₁,
      BitMemory.byte_store32_of_outside (by omega)]

end

/-! ## The gates -/

/-- Where two words in low memory are read as a descriptor. -/
theorem loadGate_eq {mem : BitMemory} {idt a b : Word} {v : Nat}
    (hmaps : Maps mem pde.toNat 0x2000 0x3000 bootTranslate) (hfits : idt.toNat + 2048 ≤ 2 ^ 22)
    (hv : v < 256) (ha : mem.word32 (idt.toNat + 8 * v) = a)
    (hb : mem.word32 (idt.toNat + 8 * v + 4) = b) :
    loadGate mem pde.toNat idt v = some (decodeGate ⟨a, b⟩) := by
  have hload : loadBytes mem pde.toNat 8 (idt + BitVec.ofNat 32 (8 * v)) =
      some (mem.bytes (idt.toNat + 8 * v) 8) := by
    apply loadBytes_eq
    intro j hj
    have haddr : (idt + BitVec.ofNat 32 (8 * v + j)).toNat = idt.toNat + 8 * v + j := by
      rw [toNat_add_ofNat (by omega), Nat.add_assoc]
    rw [BitVec.add_assoc, ← BitVec.ofNat_add, hmaps.translate, bootTranslate_low (by omega), haddr]
  rw [loadGate, hload, Option.bind_some, ← ha, ← hb, BitMemory.word32_eq_append,
    BitMemory.word32_eq_append]
  rfl

/-- `mov ebx, 0800H` puts the selector into the low word, and `mov bx, ax` writes over it. -/
theorem decodeGate_initIdt (offset : Word) :
    decodeGate ⟨movw offset 0x0800#32, movw 0x8E00#32 offset⟩ = nullGate offset := by
  rw [decodeGate_movw]
  rfl

theorem check_nullGate (gdt : GdtTable) (offset : Word) :
    (nullGate offset).check gdt = some .generalProtection := by
  unfold Gate.check nullGate GdtTable.loadCode
  dsimp only
  rw [if_neg (by decide), if_neg (by decide), if_pos (by decide)]

theorem shutsDown_of_gates {P : Platform} {mem : BitMemory} {dir : Nat} {idtr : Word} {g : Gate}
    (hcheck : g.check P.gdt = some .generalProtection)
    (hgates : ∀ v < 256, loadGate mem dir idtr v = some g)
    (hidt : P.ReadsIdt mem dir idtr) (e : Entry) (m : Machine) : ShutsDown P e m := by
  refine shutsDown_of_check (fun e ↦ ?_) e m
  have hgate := Option.some.inj ((hidt _ e.vector_lt).symm.trans (hgates _ e.vector_lt))
  rw [Platform.gate, hgate, hcheck]

/-! ## The way to `main` -/

theorem startup32_spec {y : Labels} {mem : BitMemory} (hlink : y.Linked)
    (hgdt : mem.bytes y.gdt.toNat 32 = gdtBytes) (r : Saved) :
    ∃ t, startup32 y r mem = some t ∧ MainEntered y mem t := by
  have hidt := hlink.idt
  have hbehind := hlink.gdt
  have hstack := hlink.userStack
  have hfits := hlink.fits
  obtain ⟨mem₁, hrun₁, hgates, hframe₁⟩ := callInitIdt_spec hlink r mem
  obtain ⟨mem₂, hmem₂⟩ : ∃ m, m = copyBootParameters mem₁ := ⟨_, rfl⟩
  have hframe₂ : ∀ a, a < 0x5000 ∨ 0x5800 ≤ a → mem₂.byte a = mem₁.byte a := fun a ha ↦ by
    rw [hmem₂]
    exact byte_repMovsd_of_outside mem₁ ha
  obtain ⟨mem₃, hrun₃, hmaps₃, hframe₃⟩ := callSetupPaging_spec hlink r.ebp mem₂
  have hgdt₃ : mem₃.bytes y.gdt.toNat 32 = gdtBytes := by
    rw [← hgdt]
    exact BitMemory.bytes_congr fun a _ _ ↦ by
      rw [hframe₃ a (by omega) (by omega), hframe₂ a (by omega), hframe₁ a (by omega) (by omega)]
  obtain ⟨t, hrun, hmaps, hcs, hds, hesp, hframe⟩ := enterMain_spec hlink hmaps₃ hgdt₃
  have hcode : KernelSegment t.cs := hcs ▸ kernelSegment_decoded 0xC09A#16 (by decide)
  have hdata : KernelSegment t.ds := hds ▸ kernelSegment_decoded 0xC092#16 (by decide)
  -- between the tables and the stack, only the copy writes after `init_idt`
  have hkept : ∀ a, 0x3000 ≤ a → a < y.userStack.toNat - 16 → t.mem.byte a = mem₂.byte a :=
    fun a ha ha' ↦ by rw [hframe a (by omega), hframe₃ a (by omega) (by omega)]
  have hword : ∀ a, y.idt.toNat ≤ a → a + 4 ≤ y.idt.toNat + 2048 →
      t.mem.word32 a = mem₁.word32 a := fun a ha ha' ↦
    BitMemory.word32_congr_byte fun b _ _ ↦ by
      rw [hkept b (by omega) (by omega), hframe₂ b (by omega)]
  refine ⟨t, ?_, hcode.physical_eq hmaps, hdata.physical_eq hmaps, ⟨by rw [hcs], by rw [hds]⟩, hesp,
    fun i hi ↦ ?_, fun v hv ↦ ?_, fun a ha ↦ ?_⟩
  · rw [startup32, hrun₁, Option.bind_some, ← hmem₂, hrun₃, Option.bind_some, hrun]
  · have hcopy : mem₂.word32 (0x5000 + 4 * i) = mem₁.word32 (0x90000 + 4 * i) := by
      rw [hmem₂]
      exact word32_repMovsd mem₁ (by decide) hi
    rw [BitMemory.word32_congr_byte fun a _ _ ↦ hkept a (by omega) (by omega), hcopy]
    exact BitMemory.word32_congr_byte fun a _ _ ↦ hframe₁ a (by omega) (by omega)
  · obtain ⟨hlow, hhigh⟩ := hgates v hv
    rw [loadGate_eq hmaps (by omega) hv ((hword _ (by omega) (by omega)).trans hlow)
      ((hword _ (by omega) (by omega)).trans hhigh), decodeGate_initIdt]
  · have htables := ha.tables
    have hparameters := ha.parameters
    have hidt' := ha.idt
    have hstack' := ha.stack
    rw [hframe a (by omega), hframe₃ a (by omega) (by omega), hframe₂ a (by omega),
      hframe₁ a (by omega) (by omega)]

/-- **`startup32` reaches `main`.** Its code and its data are at the offsets they are linked at, in two
windows of 4 MB, and the parameters are copied.  The gates have a null selector: whatever the table
of segments, an interrupt or an exception is the shutdown. -/
theorem startup32_main {y : Labels} {mem : BitMemory} (hlink : y.Linked)
    (hgdt : mem.bytes y.gdt.toNat 32 = gdtBytes) (r : Saved) :
    ∃ t, startup32 y r mem = some t ∧ MainEntered y mem t ∧
      ∀ P : Platform, P.ReadsIdt t.mem pde.toNat y.idt → ∀ e m, ShutsDown P e m := by
  obtain ⟨t, hrun, hentered⟩ := startup32_spec hlink hgdt r
  exact ⟨t, hrun, hentered, fun P hP ↦
    shutsDown_of_gates (check_nullGate P.gdt y.tripleInterrupt) hentered.gates hP⟩

/-- Text up to 0x6800, the descriptor tables behind, a stack below 0x10000. -/
def smallLabels : Labels where
  tripleInterrupt := 0x60A0#32
  idt := 0x6800#32
  gdt := 0x7008#32
  userStack := 0x10000#32
  initIdtReturn := 0x1C#32
  setupPagingReturn := 0x2F#32
  mainReturn := 0x60#32

theorem linked_smallLabels : smallLabels.Linked where
  idt := by decide
  gdt := by decide
  userStack := by decide
  fits := by decide

/-- Memory with `_gdt` and nothing else. -/
def gdtMemory : BitMemory := fun n ↦ (gdtBytes.getD (n / 8 - 0x7008) 0#8).getLsbD (n % 8)

theorem startup32_main_smallLabels :
    smallLabels.Linked ∧ gdtMemory.bytes smallLabels.gdt.toNat 32 = gdtBytes ∧
      ∃ t, startup32 smallLabels ⟨0#32, 0#32, 0#32, 0#32⟩ gdtMemory = some t ∧
        MainEntered smallLabels gdtMemory t ∧ ∀ P : Platform,
          P.ReadsIdt t.mem pde.toNat smallLabels.idt → ∀ e m, ShutsDown P e m :=
  have hgdt : gdtMemory.bytes smallLabels.gdt.toNat 32 = gdtBytes := by decide
  ⟨linked_smallLabels, hgdt, startup32_main linked_smallLabels hgdt _⟩

/-! ## From the disk image -/

section

variable {boot setup kernel image : List Byte} {disk : Nat → Byte} {secs : Nat}

end

end HeadS

end AphroditeOs
