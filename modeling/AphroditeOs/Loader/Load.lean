import AphroditeOs.Loader.Image

/-!
# The load loop (`boot/boot.asm`)

From `CONTINUE_READ` on the boot sector reads the kernel to `0x10000`, a call of BIOS `int 13h` for
each piece of a track that fits into the segment.  The disk has two heads.
-/

namespace AphroditeOs

def kernelEnd : BitVec 16 := 0x1000#16 + 0x3000#16

/-- The registers of a call of `int 13h` with `ah` = 2. -/
structure DiskRead where
  ch : BitVec 8
  cl : BitVec 8
  dh : BitVec 8
  al : BitVec 8
  es : BitVec 16
  bx : BitVec 16
  deriving DecidableEq, Repr

namespace DiskRead

/-- Bits 0 to 5 of `cl`, counted from 1. -/
def sector (r : DiskRead) : Nat := r.cl.toNat % 64

/-- `ch` with the two high bits of `cl`. -/
def cylinder (r : DiskRead) : Nat := r.ch.toNat + 256 * (r.cl.toNat / 64)

def buffer (r : DiskRead) : Nat := 16 * r.es.toNat + r.bx.toNat

variable (secsPerTrack : Nat)

/-- The first sector of the call, counted from the start of the disk. -/
def first (r : DiskRead) : Nat :=
  (r.cylinder * 2 + r.dh.toNat) * secsPerTrack + (r.sector - 1)

def sectors (r : DiskRead) : List Nat := List.range' (r.first secsPerTrack) r.al.toNat

/-- The call stays on its track and in its 64 KB segment. -/
structure Fits (r : DiskRead) : Prop where
  one_le : 1 ≤ r.sector
  track : r.sector - 1 + r.al.toNat ≤ secsPerTrack
  segment : r.bx.toNat + 512 * r.al.toNat ≤ 0x10000

/-- Memory after the call, which transfers the sectors to `es:bx`. -/
def transfer (disk : Nat → Byte) (r : DiskRead) (mem : Nat → Byte) : Nat → Byte := fun a ↦
  if r.buffer ≤ a ∧ a < r.buffer + 512 * r.al.toNat then
    disk (512 * r.first secsPerTrack + (a - r.buffer))
  else mem a

end DiskRead

/-- The registers that live across a pass, the loader's variables, memory, and the calls made. -/
structure Loader where
  es : BitVec 16
  bx : BitVec 16
  sp : BitVec 16
  currHead : BitVec 8
  currTrack : BitVec 8
  secsPerTrack : BitVec 8
  currReadSecs : BitVec 16
  totalReadSecs : BitVec 16
  mem : Nat → Byte
  reads : List DiskRead

namespace Loader

/-- From `CONTINUE_LOAD_KERNEL` to `READ1`: the rest of the track, or what the segment takes. -/
def clip (l : Loader) : BitVec 16 :=
  let ax := l.secsPerTrack.setWidth 16 - l.totalReadSecs
  let bytes := ax * 512#16
  -- `jnc READ1`, `je READ1`
  if 0x10000 ≤ bytes.toNat + l.bx.toNat ∧ bytes + l.bx ≠ 0#16 then (0#16 - l.bx) >>> 9 else ax

/-- The call of `read_track`, whose argument stays on the stack. -/
def readTrack (disk : Nat → Byte) (l : Loader) : Loader :=
  let r : DiskRead :=
    { ch := l.currTrack
      cl := l.totalReadSecs.setWidth 8 + 1#8
      dh := l.currHead
      al := l.currReadSecs.setWidth 8
      es := l.es
      bx := l.bx }
  { l with
    sp := l.sp - 2#16
    mem := r.transfer l.secsPerTrack.toNat disk l.mem
    reads := l.reads ++ [r] }

/-- From `read_track` to `READ2`: at the end of the track, the other head or the next track. -/
def nextTrack (l : Loader) : Loader :=
  let ax := l.currReadSecs + l.totalReadSecs
  if ax.setWidth 8 = l.secsPerTrack then
    let al := 1#8 - l.currHead
    { l with
      currTrack := if al = 0#8 then l.currTrack + 1#8 else l.currTrack
      currHead := al
      totalReadSecs := 0#16 }
  else { l with totalReadSecs := ax }

/-- `READ2` -/
def nextBuffer (l : Loader) : Loader :=
  let cx := l.currReadSecs <<< 9
  if l.bx.toNat + cx.toNat < 0x10000 then { l with bx := l.bx + cx }
  else { l with es := l.es + 0x1000#16, bx := 0#16 }

/-- From one `CONTINUE_READ` to the next, if the kernel is not complete. -/
def pass (disk : Nat → Byte) (l : Loader) : Option Loader :=
  if l.es = kernelEnd then none
  else some ({ l with currReadSecs := l.clip }.readTrack disk).nextTrack.nextBuffer

/-- The loop, up to the jump to the setup code. -/
def loop (disk : Nat → Byte) : Nat → Loader → Option Loader
  | 0, _ => none
  | fuel + 1, l =>
    match l.pass disk with
    | none => some l
    | some l => loop disk fuel l

/-- The state in which the loop starts: the boot sector and the setup code have been read. -/
def start (secsPerTrack : BitVec 8) (mem : Nat → Byte) : Loader where
  es := 0x1000#16
  bx := 0#16
  sp := 0x0FF0#16
  currHead := 0#8
  currTrack := 0#8
  secsPerTrack := secsPerTrack
  currReadSecs := 0#16
  totalReadSecs := 5#16
  mem := mem
  reads := []

end Loader

/-! ## One pass -/

/-- `p` sectors of the kernel have been read. -/
structure LoadedUpTo (disk : Nat → Byte) (secs p : Nat) (l : Loader) : Prop where
  es : l.es.toNat = 0x1000 + 0x1000 * (p / 128)
  bx : l.bx.toNat = 512 * (p % 128)
  secsPerTrack : l.secsPerTrack.toNat = secs
  head : l.currHead.toNat ≤ 1
  total : l.totalReadSecs.toNat < secs
  position : (l.currTrack.toNat * 2 + l.currHead.toNat) * secs + l.totalReadSecs.toNat = 5 + p
  reads : l.reads.flatMap (DiskRead.sectors secs) = List.range' 5 p
  fits : ∀ r ∈ l.reads, r.Fits secs
  mem : ∀ j < 512 * p, l.mem (0x10000 + j) = disk (512 * 5 + j)
  -- each call leaves its argument on the stack, and reads something
  sp : l.sp.toNat + 2 * l.reads.length = 0x0FF0
  calls : l.reads.length ≤ p

section

variable {disk : Nat → Byte} {secs p : Nat} {l : Loader}

/-- The sectors that the next call reads. -/
def chunk (secs p : Nat) (l : Loader) : Nat :=
  min (secs - l.totalReadSecs.toNat) (128 - p % 128)

theorem LoadedUpTo.toNat_clip (hsecs : secs ≤ 63) (hl : LoadedUpTo disk secs p l) :
    l.clip.toNat = chunk secs p l := by
  have htotal := hl.total
  have hbx := hl.bx
  have hrest : (l.secsPerTrack.setWidth 16 - l.totalReadSecs).toNat =
      secs - l.totalReadSecs.toNat := by
    rw [BitVec.toNat_sub_of_le, BitVec.toNat_setWidth, hl.secsPerTrack, Nat.mod_eq_of_lt (by omega)]
    rw [BitVec.le_def, BitVec.toNat_setWidth, hl.secsPerTrack, Nat.mod_eq_of_lt (by omega)]
    omega
  have hbytes : ((l.secsPerTrack.setWidth 16 - l.totalReadSecs) * 512#16).toNat =
      (secs - l.totalReadSecs.toNat) * 512 := by
    rw [BitVec.toNat_mul, hrest, show (512#16).toNat = 512 from rfl, Nat.mod_eq_of_lt (by omega)]
  have hsum : (l.secsPerTrack.setWidth 16 - l.totalReadSecs) * 512#16 + l.bx ≠ 0#16 ↔
      ((secs - l.totalReadSecs.toNat) * 512 + l.bx.toNat) % 2 ^ 16 ≠ 0 := by
    rw [ne_eq, ← BitVec.toNat_inj, BitVec.toNat_add, hbytes]
    exact Iff.rfl
  unfold Loader.clip chunk
  dsimp only
  rw [hbytes]
  split_ifs with hcut
  · -- the track goes on behind the end of the segment
    rw [hsum] at hcut
    have hneg : (0#16 - l.bx).toNat = 0x10000 - l.bx.toNat := by
      rw [BitVec.zero_sub, BitVec.toNat_neg, Nat.mod_eq_of_lt (by omega)]
    rw [BitVec.toNat_ushiftRight, hneg, Nat.shiftRight_eq_div_pow]
    omega
  · rw [hsum] at hcut
    rw [hrest]
    omega

/-- The call of this pass. -/
theorem LoadedUpTo.call (hsecs : secs ≤ 63) (hl : LoadedUpTo disk secs p l)
    (r : DiskRead) (hch : r.ch = l.currTrack) (hcl : r.cl = l.totalReadSecs.setWidth 8 + 1#8)
    (hdh : r.dh = l.currHead) (hal : r.al = l.clip.setWidth 8) (hes : r.es = l.es)
    (hbx : r.bx = l.bx) :
    r.first secs = 5 + p ∧ r.al.toNat = chunk secs p l ∧ r.buffer = 0x10000 + 512 * p ∧
      r.Fits secs := by
  have htotal := hl.total
  have hbx' := hl.bx
  have hes' := hl.es
  have hclip := hl.toNat_clip hsecs
  have hcount : r.al.toNat = chunk secs p l := by
    rw [hal, BitVec.toNat_setWidth, hclip, Nat.mod_eq_of_lt]
    unfold chunk
    omega
  have hsector : r.cl.toNat = l.totalReadSecs.toNat + 1 := by
    rw [hcl, BitVec.toNat_add, BitVec.toNat_setWidth, show (1#8).toNat = 1 from rfl]
    omega
  refine ⟨?_, hcount, ?_, ?_⟩
  · rw [DiskRead.first, DiskRead.cylinder, DiskRead.sector, hsector, hch, hdh,
      Nat.div_eq_of_lt (by omega), Nat.mod_eq_of_lt (by omega), Nat.mul_zero, Nat.add_zero,
      Nat.add_sub_cancel]
    exact hl.position
  · rw [DiskRead.buffer, hes, hbx, hes', hbx']
    omega
  · constructor
    · rw [DiskRead.sector, hsector, Nat.mod_eq_of_lt (by omega)]
      omega
    · rw [DiskRead.sector, hsector, Nat.mod_eq_of_lt (by omega), hcount]
      unfold chunk
      omega
    · rw [hbx, hbx', hcount]
      unfold chunk
      omega

-- The heads are 0 and 1.
theorem toNat_otherHead {head : BitVec 8} (hhead : head.toNat ≤ 1) :
    (1#8 - head).toNat = 1 - head.toNat := by
  rw [BitVec.toNat_sub, show (1#8).toNat = 1 from rfl]
  omega

-- The position of the head on the disk moves on by what was read.
theorem nextTrack_spec {n : Nat} (hlow : 6 ≤ secs) (hsecs : secs ≤ 63)
    (hsecsPerTrack : l.secsPerTrack.toNat = secs) (hhead : l.currHead.toNat ≤ 1)
    (hcount : l.currReadSecs.toNat = n) (htotal : l.totalReadSecs.toNat + n ≤ secs)
    (hposition : (l.currTrack.toNat * 2 + l.currHead.toNat) * secs + l.totalReadSecs.toNat = 5 + p)
    (hp : p < 384) : ∃ (head track : BitVec 8) (total : BitVec 16),
      l.nextTrack = { l with currHead := head, currTrack := track, totalReadSecs := total } ∧
      head.toNat ≤ 1 ∧ total.toNat < secs ∧
      (track.toNat * 2 + head.toNat) * secs + total.toNat = 5 + (p + n) := by
  have hsum : (l.currReadSecs + l.totalReadSecs).toNat = l.totalReadSecs.toNat + n := by
    rw [BitVec.toNat_add, hcount, Nat.mod_eq_of_lt (by omega), Nat.add_comm]
  have hend : (l.currReadSecs + l.totalReadSecs).setWidth 8 = l.secsPerTrack ↔
      l.totalReadSecs.toNat + n = secs := by
    rw [← BitVec.toNat_inj, BitVec.toNat_setWidth, hsum, hsecsPerTrack, Nat.mod_eq_of_lt (by omega)]
  have htrack : l.currTrack.toNat * 2 * 6 ≤ 388 := by
    have hmul := Nat.mul_le_mul (Nat.le_add_right (l.currTrack.toNat * 2) l.currHead.toNat) hlow
    omega
  unfold Loader.nextTrack
  dsimp only
  split_ifs with hlast hzero
  · -- from the second head to the next track
    rw [hend] at hlast
    have hone : l.currHead.toNat = 1 := by
      have hother := toNat_otherHead hhead
      rw [hzero, BitVec.toNat_zero] at hother
      omega
    refine ⟨_, _, _, rfl, ?_, ?_, ?_⟩
    · rw [hzero]
      decide
    · show 0 < secs
      omega
    · have hnext : (l.currTrack + 1#8).toNat = l.currTrack.toNat + 1 := by
        rw [BitVec.toNat_add, show (1#8).toNat = 1 from rfl, Nat.mod_eq_of_lt (by omega)]
      rw [hzero, hnext, BitVec.toNat_zero, BitVec.toNat_zero, Nat.add_zero,
        Nat.add_zero, show (l.currTrack.toNat + 1) * 2 = (l.currTrack.toNat * 2 + 1) + 1 by ring,
        Nat.add_mul, one_mul]
      rw [hone] at hposition
      omega
  · rw [hend] at hlast
    have hone : l.currHead.toNat = 0 := by
      by_contra hne
      apply hzero
      rw [← BitVec.toNat_inj, toNat_otherHead hhead, BitVec.toNat_zero]
      omega
    have hnext : (1#8 - l.currHead).toNat = 1 := by
      rw [toNat_otherHead hhead, hone]
    refine ⟨_, _, _, rfl, ?_, ?_, ?_⟩
    · omega
    · show 0 < secs
      omega
    · rw [hnext, BitVec.toNat_zero, Nat.add_zero, Nat.add_mul, one_mul]
      rw [hone, Nat.add_zero] at hposition
      omega
  · rw [hend] at hlast
    refine ⟨_, _, _, rfl, hhead, ?_, ?_⟩
    · rw [hsum]
      omega
    · rw [hsum]
      omega

theorem nextBuffer_spec {n : Nat} (hn : n ≤ 63) (hfit : n ≤ 128 - p % 128) (hp : p < 384)
    (hes : l.es.toNat = 0x1000 + 0x1000 * (p / 128)) (hbx : l.bx.toNat = 512 * (p % 128))
    (hcount : l.currReadSecs.toNat = n) : ∃ es bx : BitVec 16,
      l.nextBuffer = { l with es := es, bx := bx } ∧
      es.toNat = 0x1000 + 0x1000 * ((p + n) / 128) ∧ bx.toNat = 512 * ((p + n) % 128) := by
  have hbytes : (l.currReadSecs <<< 9).toNat = 512 * n := by
    rw [BitVec.toNat_shiftLeft, hcount, Nat.shiftLeft_eq, Nat.mod_eq_of_lt (by omega)]
    omega
  unfold Loader.nextBuffer
  dsimp only
  rw [hbytes, hbx]
  split_ifs with hcarry
  · refine ⟨_, _, rfl, ?_, ?_⟩
    · rw [hes]
      omega
    · rw [BitVec.toNat_add, hbytes, hbx, Nat.mod_eq_of_lt (by omega)]
      omega
  · refine ⟨_, _, rfl, ?_, ?_⟩
    · rw [BitVec.toNat_add, hes, show (0x1000#16).toNat = 0x1000 from rfl,
        Nat.mod_eq_of_lt (by omega)]
      omega
    · rw [BitVec.toNat_zero]
      omega

theorem LoadedUpTo.transfer (hl : LoadedUpTo disk secs p l) {r : DiskRead} {n : Nat}
    (hfirst : r.first secs = 5 + p) (hcount : r.al.toNat = n)
    (hbuffer : r.buffer = 0x10000 + 512 * p) :
    ∀ j < 512 * (p + n), r.transfer secs disk l.mem (0x10000 + j) = disk (512 * 5 + j) := by
  intro j hj
  unfold DiskRead.transfer
  rw [hfirst, hcount, hbuffer]
  split_ifs with hinside
  · congr 1
    omega
  · exact hl.mem j (by omega)

/-- A pass reads the next sectors, at least one. -/
theorem LoadedUpTo.pass (hlow : 6 ≤ secs) (hsecs : secs ≤ 63) (hl : LoadedUpTo disk secs p l)
    (hp : p < 384) :
    ∃ n l', 0 < n ∧ p + n ≤ 384 ∧ l.pass disk = some l' ∧ LoadedUpTo disk secs (p + n) l' := by
  have hclip := hl.toNat_clip hsecs
  have htotal := hl.total
  have hes := hl.es
  have hgo : l.es ≠ kernelEnd := by
    intro hend
    rw [hend, show kernelEnd.toNat = 0x4000 from rfl] at hes
    omega
  obtain ⟨n, hn⟩ : ∃ n, n = chunk secs p l := ⟨_, rfl⟩
  rw [← hn] at hclip
  unfold chunk at hn
  -- the registers of the call
  obtain ⟨r, hr⟩ : ∃ r : DiskRead, r = ⟨l.currTrack, l.totalReadSecs.setWidth 8 + 1#8, l.currHead,
    l.clip.setWidth 8, l.es, l.bx⟩ := ⟨_, rfl⟩
  obtain ⟨hfirst, hcount, hbuffer, hfits⟩ :=
    hl.call hsecs r (by rw [hr]) (by rw [hr]) (by rw [hr]) (by rw [hr]) (by rw [hr]) (by rw [hr])
  replace hcount : r.al.toNat = n := hcount.trans hn.symm
  have hread : ({ l with currReadSecs := l.clip } : Loader).readTrack disk =
      { l with currReadSecs := l.clip, sp := l.sp - 2#16,
               mem := r.transfer secs disk l.mem, reads := l.reads ++ [r] } := by
    rw [hr, ← hl.secsPerTrack]
    rfl
  obtain ⟨head, track, total, hnext, hhead', htotal', hposition'⟩ := nextTrack_spec
    (l := ({ l with currReadSecs := l.clip } : Loader).readTrack disk) (n := n) hlow hsecs
    (by rw [hread]; exact hl.secsPerTrack) (by rw [hread]; exact hl.head)
    (by rw [hread]; exact hclip) (by rw [hread]; show l.totalReadSecs.toNat + n ≤ secs; omega)
    (by rw [hread]; exact hl.position) hp
  obtain ⟨es, bx, hbuf, hes', hbx'⟩ := nextBuffer_spec
    (l := (({ l with currReadSecs := l.clip } : Loader).readTrack disk).nextTrack) (n := n)
    (by omega) (by omega) hp (by rw [hnext, hread]; exact hl.es) (by rw [hnext, hread]; exact hl.bx)
    (by rw [hnext, hread]; exact hclip)
  refine ⟨n, _, by omega, by omega, if_neg hgo, ?_⟩
  rw [hbuf, hnext, hread]
  have hcalls := hl.calls
  have hsp := hl.sp
  constructor
  · exact hes'
  · exact hbx'
  · exact hl.secsPerTrack
  · exact hhead'
  · exact htotal'
  · exact hposition'
  · show (l.reads ++ [r]).flatMap _ = _
    rw [List.flatMap_append, hl.reads, List.flatMap_singleton, DiskRead.sectors, hfirst, hcount,
      List.range'_append_1]
  · intro r' hr'
    rcases List.mem_append.mp hr' with hold | hnew
    · exact hl.fits r' hold
    · rw [List.mem_singleton.mp hnew]
      exact hfits
  · exact hl.transfer hfirst hcount hbuffer
  · show (l.sp - 2#16).toNat + 2 * (l.reads ++ [r]).length = _
    rw [BitVec.toNat_sub, show (2#16).toNat = 2 from rfl, List.length_append, List.length_singleton]
    omega
  · show (l.reads ++ [r]).length ≤ _
    rw [List.length_append, List.length_singleton]
    omega

/-! ## The loop -/

theorem loadedUpTo_start (hlow : 6 ≤ secs) (hsecs : secs ≤ 63) (mem : Nat → Byte) :
    LoadedUpTo disk secs 0 (Loader.start (BitVec.ofNat 8 secs) mem) := by
  constructor
  · rfl
  · rfl
  · show (BitVec.ofNat 8 secs).toNat = secs
    rw [BitVec.toNat_ofNat, Nat.mod_eq_of_lt (by omega)]
  · exact Nat.zero_le 1
  · show 5 < secs
    omega
  · show (0 * 2 + 0) * secs + 5 = 5 + 0
    omega
  · rfl
  · intro r hr
    exact absurd hr List.not_mem_nil
  · intro j hj
    omega
  · rfl
  · exact Nat.zero_le 0

theorem LoadedUpTo.loop (hlow : 6 ≤ secs) (hsecs : secs ≤ 63) (hl : LoadedUpTo disk secs p l)
    (hp : p ≤ 384) {fuel : Nat} (hfuel : 384 - p < fuel) :
    ∃ l', l.loop disk fuel = some l' ∧ LoadedUpTo disk secs 384 l' := by
  induction fuel generalizing p l with
  | zero => omega
  | succ fuel ih =>
    rw [Loader.loop]
    rcases Nat.eq_or_lt_of_le hp with rfl | hlt
    · have hend : l.es = kernelEnd := BitVec.eq_of_toNat_eq hl.es
      rw [Loader.pass, if_pos hend]
      exact ⟨l, rfl, hl⟩
    · obtain ⟨n, l', hn, hle, hpass, hl'⟩ := hl.pass hlow hsecs hlt
      rw [hpass]
      exact ih hl' hle (by omega)

/-- The image that is built is the one that is loaded: for any kernel of at most 192 KB and any
number of sectors per track. -/
theorem kernel_loaded (hlow : 6 ≤ secs) (hsecs : secs ≤ 63) {boot setup kernel image : List Byte}
    (hbuild : buildImage boot setup kernel = some image)
    (hdisk : ∀ i (hi : i < image.length), disk i = image[i]) (mem : Nat → Byte) :
    ∃ fuel l, (Loader.start (BitVec.ofNat 8 secs) mem).loop disk fuel = some l ∧
      l.reads.flatMap (DiskRead.sectors secs) = List.range' 5 384 ∧
      (∀ r ∈ l.reads, r.Fits secs) ∧
      ∀ j (hj : j < kernel.length), l.mem (0x10000 + j) = kernel[j] := by
  have hstart : LoadedUpTo disk secs 0 (Loader.start (BitVec.ofNat 8 secs) mem) :=
    loadedUpTo_start hlow hsecs mem
  obtain ⟨fuel, hfuel⟩ : ∃ fuel, 384 - 0 < fuel := ⟨_, Nat.lt_succ_self _⟩
  obtain ⟨l, hloop, hl⟩ := hstart.loop hlow hsecs (Nat.zero_le 384) hfuel
  obtain ⟨hsize, front, hfront, rfl⟩ := buildImage_spec hbuild
  refine ⟨fuel, l, hloop, hl.reads, hl.fits, ?_⟩
  intro j hj
  have hindex : 512 * 5 + j < (front ++ kernel).length := by
    rw [List.length_append, hfront]
    omega
  rw [hl.mem j (by unfold kernelSize at hsize; omega), hdisk _ hindex,
    List.getElem_append_right (by omega)]
  congr 1
  omega

end

/-! ## A floppy -/

/-- A boot sector with nothing but the signature. -/
def emptyBoot : List Byte := List.replicate 510 0#8 ++ [0x55#8, 0xAA#8]

theorem length_emptyBoot : emptyBoot.length = 0x200 := by
  rw [emptyBoot, List.length_append, List.length_replicate]
  rfl

theorem bootSig_emptyBoot : bootSig emptyBoot = 0xAA55#16 := by
  rw [bootSig, emptyBoot, List.getD_append_right _ _ _ _ (by rw [List.length_replicate]; omega),
    List.getD_append_right _ _ _ _ (by rw [List.length_replicate]), List.length_replicate]
  rfl

/-- Setup code that ends in its second sector. -/
def shortSetup : List Byte := List.replicate 0x300 0x90#8

theorem length_shortSetup : shortSetup.length ≤ setupSize := by
  rw [shortSetup, List.length_replicate, setupSize]
  omega

/-- A kernel of 68 KB, which ends in the second segment and on the eighth track. -/
def longKernel : List Byte := (List.range 0x11000).map fun j ↦ BitVec.ofNat 8 (j / 256 + 1)

theorem length_longKernel : longKernel.length = 0x11000 := by
  rw [longKernel, List.length_map, List.length_range]

theorem getElem_longKernel {j : Nat} (hj : j < longKernel.length) :
    longKernel[j] = BitVec.ofNat 8 (j / 256 + 1) := by
  simp only [longKernel, List.getElem_map, List.getElem_range]

theorem length_longKernel_le : longKernel.length ≤ kernelSize := by
  rw [length_longKernel, kernelSize]
  omega

/-- A disk with 18 sectors per track. -/
theorem kernel_loaded_floppy :
    ∃ image, buildImage emptyBoot shortSetup longKernel = some image ∧ ∃ fuel l,
      (Loader.start 18#8 fun _ ↦ 0#8).loop (fun i ↦ image.getD i 0#8) fuel = some l ∧
      l.reads.flatMap (DiskRead.sectors 18) = List.range' 5 384 ∧
      (∀ r ∈ l.reads, r.Fits 18) ∧
      ∀ j < 0x11000, l.mem (0x10000 + j) = BitVec.ofNat 8 (j / 256 + 1) := by
  have hbuild := buildImage_eq length_emptyBoot bootSig_emptyBoot length_shortSetup
    length_longKernel_le
  obtain ⟨fuel, l, hloop, hreads, hfits, hmem⟩ := kernel_loaded (show 6 ≤ 18 by decide) (by decide)
    hbuild (fun i hi ↦ (List.getElem_eq_getD 0#8).symm) fun _ ↦ 0#8
  refine ⟨_, hbuild, fuel, l, hloop, hreads, hfits, fun j hj ↦ ?_⟩
  have hin : j < longKernel.length := by rwa [length_longKernel]
  rw [hmem j hin, getElem_longKernel hin]

end AphroditeOs
