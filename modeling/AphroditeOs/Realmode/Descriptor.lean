import AphroditeOs.Loader.Image

/-!
# Segment descriptors (`boot/protect.inc`)

The macro `gdt_desc`, with the numbers of the assembler 64 bits wide, and the layout in which the
processor reads its eight bytes.
-/

namespace AphroditeOs

/-- `db` -/
def db (v : BitVec 64) : List Byte := [v.extractLsb' 0 8]

/-- `dw` -/
def dw (v : BitVec 64) : List Byte := [v.extractLsb' 0 8, v.extractLsb' 8 8]

def gdtDesc (limit base attr : BitVec 64) : List Byte :=
  dw (limit &&& 0xFFFF#64) ++
  dw (base &&& 0xFFFF#64) ++
  db (base >>> 16 &&& 0xFF#64) ++
  dw ((limit >>> 4 &&& 0x0F00#64) ||| (attr &&& 0xF0FF#64)) ++
  db (base >>> 24 &&& 0xFF#64)

/-- A descriptor as the processor takes it.  The attributes are the access byte and the flags, with
the place of the limit's high nibble empty. -/
structure SegmentDescriptor where
  limit : BitVec 20
  base : BitVec 32
  attr : BitVec 16
  deriving DecidableEq, Repr

def decodeSegment : List Byte → Option SegmentDescriptor
  | [b0, b1, b2, b3, b4, b5, b6, b7] => some
      { limit := b0.setWidth 20 ||| b1.setWidth 20 <<< 8 ||| (b6.setWidth 20 &&& 0xF#20) <<< 16
        base := b2.setWidth 32 ||| b3.setWidth 32 <<< 8 ||| b4.setWidth 32 <<< 16 |||
          b7.setWidth 32 <<< 24
        attr := b5.setWidth 16 ||| (b6.setWidth 16 &&& 0xF0#16) <<< 8 }
  | _ => none

section

variable (limit : BitVec 20) (base : BitVec 32) (attr : BitVec 16)

/-- The limit with bits 12 to 15 in the place of bits 16 to 19. -/
def gdtLimit : BitVec 20 := (limit &&& 0xFFFF#20) ||| (limit &&& 0xF000#20) <<< 4

/-- What the macro encodes: `>> 4` is one nibble short of the limit's high nibble. -/
theorem decodeSegment_gdtDesc :
    decodeSegment (gdtDesc (limit.setWidth 64) (base.setWidth 64) (attr.setWidth 64)) =
      some ⟨gdtLimit limit, base, attr &&& 0xF0FF#16⟩ := by
  show some _ = some _
  congr 2
  · ext i hi
    interval_cases i <;> simp [gdtLimit]
  · ext i hi
    interval_cases i <;> simp
  · ext i hi
    interval_cases i <;> simp

theorem gdtLimit_eq_iff : gdtLimit limit = limit ↔
    limit.extractLsb' 16 4 = limit.extractLsb' 12 4 := by
  have hhigh : (gdtLimit limit).extractLsb' 16 4 = limit.extractLsb' 12 4 := by
    ext i hi
    interval_cases i <;> simp [gdtLimit]
  constructor
  · intro h
    rw [← hhigh, h]
  · intro h
    have hbit : ∀ i < 4, limit.getLsbD (16 + i) = limit.getLsbD (12 + i) := by
      intro i hi
      have := congrArg (fun x : BitVec 4 ↦ x.getLsbD i) h
      simpa [hi] using this
    apply BitVec.eq_of_getLsbD_eq
    intro i hi
    by_cases hlow : i < 16
    · interval_cases i <;> simp [gdtLimit]
    · -- a bit of the high nibble
      obtain ⟨j, rfl⟩ := Nat.exists_eq_add_of_le (Nat.le_of_not_lt hlow)
      rw [hbit j (by omega)]
      have hj : j < 4 := by omega
      interval_cases j <;> simp [gdtLimit]

variable {attr} in
theorem and_attr_eq (h : attr &&& 0x0F00#16 = 0#16) : attr &&& 0xF0FF#16 = attr :=
  calc attr &&& 0xF0FF#16
    _ = (attr &&& 0xF0FF#16) ||| (attr &&& 0x0F00#16) := by rw [h, BitVec.or_zero]
    _ = attr &&& (0xF0FF#16 ||| 0x0F00#16) := (BitVec.and_or_distrib_left ..).symm
    _ = attr := BitVec.and_allOnes

/-- **A descriptor decodes to its limit exactly when the two nibbles are the same.** -/
theorem gdtDesc_decodes_iff (h : attr &&& 0x0F00#16 = 0#16) :
    decodeSegment (gdtDesc (limit.setWidth 64) (base.setWidth 64) (attr.setWidth 64)) =
        some ⟨limit, base, attr⟩ ↔
      limit.extractLsb' 16 4 = limit.extractLsb' 12 4 := by
  rw [decodeSegment_gdtDesc, and_attr_eq h, Option.some_inj, SegmentDescriptor.mk.injEq,
    gdtLimit_eq_iff]
  simp

end

/-- All of memory in pages. -/
theorem gdtDesc_decodes_flat :
    decodeSegment (gdtDesc 0xFFFFF#64 0#64 0xC09A#64) = some ⟨0xFFFFF#20, 0#32, 0xC09A#16⟩ :=
  (gdtDesc_decodes_iff 0xFFFFF#20 0#32 0xC09A#16 (by decide)).mpr (by decide)

/-- `r3_code` of `head.s`, up to 3 GB, decodes to a segment of 4 GB. -/
theorem not_forall_gdtDesc_decodes :
    ¬ ∀ (limit : BitVec 20) (base : BitVec 32) (attr : BitVec 16), attr &&& 0x0F00#16 = 0#16 →
      decodeSegment (gdtDesc (limit.setWidth 64) (base.setWidth 64) (attr.setWidth 64)) =
        some ⟨limit, base, attr⟩ := by
  intro hall
  have hr3 := hall 0xBFFFF#20 0#32 0xC0FA#16 (by decide)
  rw [decodeSegment_gdtDesc] at hr3
  exact absurd hr3 (by decide)

end AphroditeOs
