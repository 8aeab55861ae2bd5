import AphroditeOs.Bootmem.Node

/-!
# `__alloc_bootmem_core` (`mm/bootmem.c`)

The function is cut where the source has its labels: the choice of the first page to look at, the
scan of `restart_scan`, and `found`.  The macro `ALIGN` comes from `linux/kernel.h`, which the
repository does not hold, so it is a parameter.
-/

namespace AphroditeOs

/-- What the kernel relies on of `ALIGN(x, a)`: the least multiple of a power of two `a` that is
not below `x`, where that is representable. -/
def AlignSpec (ALIGN : Word → Word → Word) : Prop :=
  ∀ x a : Word, a.toNat.isPowerOfTwo → x.toNat + a.toNat ≤ 2 ^ 32 →
    (ALIGN x a).toNat = Align.roundUp x.toNat a.toNat

/-- `ALIGN` as a mask, for runs on fixed inputs. -/
def alignMask (x a : Word) : Word := (x + a - 1#32) &&& ~~~(a - 1#32)

theorem alignMask_spec : AlignSpec alignMask := fun x _ ha hfit ↦ Align.toNat_align x ha hfit

/-- Ways for the call not to return: `BUG()` (`ud2`), or a scan that never ends. -/
inductive Fault where
  | bug
  | hang
  deriving DecidableEq, Repr

inductive Scan where
  | found (start : Word)
  | exhausted
  | hang
  deriving DecidableEq, Repr

/-- `eidx`: how many pages are in the node. -/
def nodePages (b : BootmemData) : Word := b.nodeLowPfn - (b.nodeBootStart >>> pageShift)

def nodeOffset (b : BootmemData) (align : Word) : Word :=
  (if align ≠ 0#32 ∧ b.nodeBootStart &&& (align - 1#32) ≠ 0#32 then
    align - (b.nodeBootStart &&& (align - 1#32))
  else 0#32) >>> pageShift

/-- `preferred`, the page index the first scan starts from. -/
def preferredPage (b : BootmemData) (align goal : Word) : Word :=
  let preferred :=
    if goal ≠ 0#32 ∧ b.nodeBootStart ≤ goal ∧ goal >>> pageShift < b.nodeLowPfn then
      let preferred := goal - b.nodeBootStart
      if preferred ≤ b.lastSuccess then b.lastSuccess else preferred
    else 0#32
  (((preferred + align - 1#32) &&& ~~~(align - 1#32)) >>> pageShift) + nodeOffset b align

/-- `areasize`. -/
def areaPages (size : Word) : Word := (size + pageSize - 1#32) / pageSize

/-- `incr`. -/
def scanStride (align : Word) : Word :=
  if align >>> pageShift ≠ 0#32 then align >>> pageShift else 1#32

/-- The inner loop: the index `j` it fails at, or `none` when all pages are there. -/
def areaFailure (s : BootState) (eidx : Word) : Nat → Word → Option Word
  | 0, _ => none
  | count + 1, j =>
    if eidx ≤ j ∨ s.busy j.toNat then some j else areaFailure s eidx count (j + 1#32)

/-- The loop after `restart_scan`. -/
def scanFrom (ALIGN : Word → Word → Word) (s : BootState) (eidx areasize incr : Word) :
    Nat → Word → Scan
  | 0, _ => .hang
  | fuel + 1, i =>
    if i < eidx then
      let i := ALIGN (findNextZeroBit s.mem s.bdata.map eidx i) incr
      if s.busy i.toNat then scanFrom ALIGN s eidx areasize incr fuel (i + incr)
      else match areaFailure s eidx ((i + areasize).toNat - i.toNat) i with
        | none => .found i
        -- `fail_block` rounds up, and then the loop adds `incr` as well
        | some j => scanFrom ALIGN s eidx areasize incr fuel (ALIGN j incr + incr)
    else .exhausted

/-- One scan; every pass moves `i` up, so `eidx + 1` passes are enough. -/
def restartScan (ALIGN : Word → Word → Word) (s : BootState) (size align preferred : Word) : Scan :=
  let eidx := nodePages s.bdata
  scanFrom ALIGN s eidx (areaPages size) (scanStride align) (eidx.toNat + 1) preferred

/-- Both scans: from the preferred page, and from the beginning of the node. -/
def findStart (ALIGN : Word → Word → Word) (s : BootState) (size align goal : Word) : Scan :=
  let preferred := preferredPage s.bdata align goal
  let offset := nodeOffset s.bdata align
  match restartScan ALIGN s size align preferred with
  | .exhausted =>
    if offset < preferred then restartScan ALIGN s size align offset else .exhausted
  | r => r

/-- From `found` on: the pointer to return, the number of pages to reserve and the node's new
hints. -/
def placeArea (b : BootmemData) (size align start : Word) : Except Fault (Word × Word × BootmemData) :=
  let b := { b with lastSuccess := start <<< pageShift }
  if align < pageSize ∧ b.lastOffset ≠ 0#32 ∧ b.lastPos + 1#32 = start then
    -- merge with the page the last allocation ends in
    let offset := (b.lastOffset + align - 1#32) &&& ~~~(align - 1#32)
    if pageSize < offset then .error .bug
    else
      let remainingSize := pageSize - offset
      let ret := va (b.lastPos * pageSize + offset + b.nodeBootStart)
      if size < remainingSize then
        .ok (ret, 0#32, { b with lastOffset := (offset + size) &&& ~~~pageMask })
      else
        let remainingSize := size - remainingSize
        let areasize := (remainingSize + pageSize - 1#32) / pageSize
        .ok (ret, areasize, { b with
          lastPos := start + areasize - 1#32
          lastOffset := remainingSize &&& ~~~pageMask })
  else
    let areasize := areaPages size
    .ok (va (start * pageSize + b.nodeBootStart), areasize, { b with
      lastPos := start + areasize - 1#32
      lastOffset := size &&& ~~~pageMask })

/-- The last loop: reserve the pages, with `BUG()` on one that is reserved already. -/
def reserveRun (mem : BitMemory) (addr : Nat) : Nat → Nat → Except Fault BitMemory
  | 0, _ => .ok mem
  | count + 1, i =>
    let r := testAndSetBit mem addr i
    if r.1 then .error .bug else reserveRun r.2 addr count (i + 1)

/-- `found` as a whole, with the `memset` of the region before it is returned. -/
def takeArea (size align start : Word) (s : BootState) : Except Fault (Word × BootState) := do
  let (ret, areasize, b) ← placeArea s.bdata size align start
  let mem ← reserveRun s.mem b.map ((start + areasize).toNat - start.toNat) start.toNat
  return (ret, { s with
    bdata := b
    mem := mem.fill (pa ret).toNat 0x00#8 size.toNat })

/-- The returned pointer (`none` is `NULL`) and the state after the call. -/
def allocBootmemCore (ALIGN : Word → Word → Word) (size align goal : Word) (s : BootState) :
    Except Fault (Option Word × BootState) :=
  if size = 0#32 then .error .bug
  else if align &&& (align - 1#32) ≠ 0#32 then .error .bug
  else match findStart ALIGN s size align goal with
    | .hang => .error .hang
    | .exhausted => .ok (none, s)
    | .found start => (takeArea size align start s).map fun r ↦ (some r.1, r.2)

end AphroditeOs
