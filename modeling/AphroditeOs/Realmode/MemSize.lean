import AphroditeOs.Lib.WordStack
import AphroditeOs.Realmode.MemMap

/-!
# The size of memory (`calc_phy_mem_size` of `boot/setup.asm`)

The function looks for the last entry of type 1, from the end of the map on.  Each round pushes the
number of the entry, and the way out of the loop does not pop it.
-/

namespace AphroditeOs

open Dword

/-- The registers that the function uses, and the stack. -/
structure RealMode where
  eax : Word
  ebx : Word
  edx : Word
  esi : Word
  edi : Word
  bp : BitVec 16
  stack : WordStack

def setLo (r : Word) (v : BitVec 16) : Word := join (hi r) v

namespace RealMode

def lodsd (data : ByteSegment) (s : RealMode) : RealMode :=
  { s with eax := data.load32 (lo s.esi), esi := setLo s.esi (lo s.esi + 4#16) }

/-- `div` of `edx:eax`.  A quotient that does not fit is a divide error. -/
def div (divisor : Word) (s : RealMode) : Option RealMode :=
  let dividend := s.edx.setWidth 64 <<< 32 ||| s.eax.setWidth 64
  let quotient := dividend / divisor.setWidth 64
  if divisor = 0#32 ∨ 2 ^ 32 ≤ quotient.toNat then none
  else some { s with
    eax := quotient.setWidth 32
    edx := (dividend % divisor.setWidth 64).setWidth 32 }

/-- `enter 0, 0`, after the call has pushed the address `ip` of the next instruction. -/
def enter (ip : BitVec 16) (s : RealMode) : RealMode :=
  let stack := (s.stack.push ip).push s.bp
  { s with bp := stack.sp, stack }

/-- `leave` and `ret`. -/
def leaveRet (s : RealMode) : BitVec 16 × RealMode :=
  let bp := WordStack.pop { s.stack with sp := s.bp }
  let ip := bp.2.pop
  (ip.1, { s with bp := bp.1, stack := ip.2 })

def pushRegs (s : RealMode) : RealMode :=
  let stack := (s.stack.push32 s.ebx).push32 s.edx
  { s with stack := (stack.push (lo s.esi)).push (lo s.edi) }

def popRegs (s : RealMode) : RealMode :=
  let di := s.stack.pop
  let si := di.2.pop
  let edx := si.2.pop32
  let ebx := edx.2.pop32
  { s with
    edi := setLo s.edi di.1
    esi := setLo s.esi si.1
    edx := edx.1
    ebx := ebx.1
    stack := ebx.2 }

end RealMode

section

variable (memMapBuffer : BitVec 16) (data : ByteSegment)

/-- From `CONTINUE_FIND_LVE` to the comparison. -/
def findLve (s : RealMode) : RealMode :=
  let ax := lo s.eax - 1#16
  let stack := s.stack.push ax
  let bx := 20#16
  let product := ax.setWidth 32 * bx.setWidth 32
  let di := lo product + memMapBuffer
  let si := di + 16#16
  RealMode.lodsd data { s with
    eax := setLo s.eax si
    ebx := setLo s.ebx bx
    edx := setLo s.edx (hi product)
    edi := setLo s.edi di
    esi := setLo s.esi si
    stack }

def continueFindLve : Nat → RealMode → Option RealMode
  | 0, _ => none
  | fuel + 1, s =>
    let s := findLve memMapBuffer data s
    if s.eax = 1#32 then some s
    else continueFindLve fuel { s with
      edx := setLo s.edx 0#16
      eax := setLo s.eax s.stack.pop.1
      stack := s.stack.pop.2 }

def getLastValidEntry (s : RealMode) : Option RealMode :=
  -- `xchg di, si`
  let s := RealMode.lodsd data { s with
    esi := setLo s.esi (lo s.edi)
    edi := setLo s.edi (lo s.esi) }
  let s := RealMode.lodsd data { s with
    ebx := s.eax
    esi := setLo s.esi (lo s.esi + 4#16) }
  RealMode.div (1024#32 * 1024#32) { s with
    eax := s.eax + s.ebx
    edx := 0#32
    ebx := 1024#32 * 1024#32 }

/-- The function, called from in front of `ip`.  After 65536 rounds `ax` is what it was, and a search
that has not ended by then never does. -/
def calcPhyMemSize (memMapCount ip : BitVec 16) (s : RealMode) : Option (BitVec 16 × RealMode) :=
  let s := (s.enter ip).pushRegs
  let s := { s with edx := setLo s.edx 0#16, eax := setLo s.eax memMapCount }
  (continueFindLve memMapBuffer data (2 ^ 16) s).bind fun s ↦
    (getLastValidEntry data s).map fun s ↦ s.popRegs.leaveRet

end

def MemMapEntry.baseAddr (e : MemMapEntry) : BitVec 64 :=
  e.baseAddrH.setWidth 64 <<< 32 ||| e.baseAddrL.setWidth 64

def MemMapEntry.limit (e : MemMapEntry) : BitVec 64 :=
  e.limitH.setWidth 64 <<< 32 ||| e.limitL.setWidth 64

/-- Entry `k` is the last of the first `n` that has the type of RAM. -/
structure LastRam (memMapBuffer : BitVec 16) (data : ByteSegment) (n k : Nat) : Prop where
  lt : k < n
  type : (entryAt memMapBuffer data k).type = 1#32
  later : ∀ j, k < j → j < n → (entryAt memMapBuffer data j).type ≠ 1#32

/-- What the function owes to its callers: the size, the registers that it pushes on entry and the
stack pointer. -/
structure Respected (e : MemMapEntry) (s t : RealMode) : Prop where
  eax : t.eax = (e.baseAddr + e.limit).setWidth 32 / 0x100000#32
  ebx : t.ebx = s.ebx
  edx : t.edx = s.edx
  si : lo t.esi = lo s.esi
  di : lo t.edi = lo s.edi
  sp : t.stack.sp = s.stack.sp

section

variable {memMapBuffer ip x : BitVec 16} {data : ByteSegment} {s t : RealMode} {n k : Nat}
  {vs : List (BitVec 16)}

@[simp] theorem lo_setLo (r : Word) (v : BitVec 16) : lo (setLo r v) = v := lo_join _ _

/-! ## The stack -/

/-- The registers as `pushRegs` leaves them, the top first. -/
def RealMode.saved (s : RealMode) : List (BitVec 16) :=
  [lo s.edi, lo s.esi, lo s.edx, hi s.edx, lo s.ebx, hi s.ebx]

theorem holds_enter (ip : BitVec 16) (s : RealMode) : (s.enter ip).stack.Holds [s.bp, ip] :=
  ((WordStack.holds_nil s.stack).push ip (by decide)).push s.bp (by simp)

theorem holds_pushRegs (h : s.stack.Holds vs) (hlen : vs.length + 6 < 2 ^ 14) :
    s.pushRegs.stack.Holds (s.saved ++ vs) := by
  have hebx := h.push32 s.ebx (by omega)
  have hedx := hebx.push32 s.edx (by simp; omega)
  exact (hedx.push (lo s.esi) (by simp; omega)).push (lo s.edi) (by simp; omega)

@[simp] theorem sp_enter (ip : BitVec 16) (s : RealMode) :
    (s.enter ip).stack.sp = s.stack.sp - 2#16 - 2#16 := by
  simp [RealMode.enter]

@[simp] theorem sp_pushRegs (s : RealMode) :
    s.pushRegs.stack.sp = s.stack.sp - 2#16 - 2#16 - 2#16 - 2#16 - 2#16 - 2#16 := by
  simp [RealMode.pushRegs]

@[simp] theorem sp_popRegs (s : RealMode) :
    s.popRegs.stack.sp = s.stack.sp + 2#16 + 2#16 + 2#16 + 2#16 + 2#16 + 2#16 := by
  simp [RealMode.popRegs]

/-- The six words on top go to the registers, whatever they were pushed as. -/
theorem popRegs_eq {w0 w1 w2 w3 w4 w5 : BitVec 16}
    (h : s.stack.Holds (w0 :: w1 :: w2 :: w3 :: w4 :: w5 :: vs)) :
    lo s.popRegs.edi = w0 ∧ lo s.popRegs.esi = w1 ∧ s.popRegs.edx = join w3 w2 ∧
      s.popRegs.ebx = join w5 w4 ∧ s.popRegs.stack.Holds vs := by
  obtain ⟨hdi, h⟩ := h.pop
  obtain ⟨hsi, h⟩ := h.pop
  obtain ⟨hedx, h⟩ := h.pop32
  obtain ⟨hebx, h⟩ := h.pop32
  exact ⟨(lo_setLo _ _).trans hdi, (lo_setLo _ _).trans hsi, hedx, hebx, h⟩

theorem leaveRet_eq (h : WordStack.Holds { s.stack with sp := s.bp } [x, ip]) :
    s.leaveRet =
      (ip, { s with bp := x, stack := { s.stack with sp := s.bp + 2#16 + 2#16 } }) := by
  obtain ⟨hbp, h⟩ := h.pop
  obtain ⟨hip, -⟩ := h.pop
  rw [RealMode.leaveRet, hbp, hip]
  rfl

/-! ## The search -/

theorem lo_mul_setWidth (x y : BitVec 16) : lo (x.setWidth 32 * y.setWidth 32) = x * y := by
  apply BitVec.eq_of_toNat_eq
  simp [lo, BitVec.extractLsb'_toNat, Nat.mul_mod]

theorem lo_mul_twenty (memMapBuffer : BitVec 16) (n : Nat) :
    lo ((BitVec.ofNat 16 n).setWidth 32 * (20#16).setWidth 32) + memMapBuffer =
      memMapBuffer + BitVec.ofNat 16 (20 * n) := by
  rw [lo_mul_setWidth, BitVec.add_comm, BitVec.mul_comm, BitVec.ofNat_mul]

/-- A round for entry `n`. -/
theorem findLve_eq (memMapBuffer : BitVec 16) (data : ByteSegment)
    (h : lo s.eax = BitVec.ofNat 16 (n + 1)) :
    (findLve memMapBuffer data s).eax = (entryAt memMapBuffer data n).type ∧
      lo (findLve memMapBuffer data s).edi = memMapBuffer + BitVec.ofNat 16 (20 * n) ∧
      (findLve memMapBuffer data s).stack = s.stack.push (BitVec.ofNat 16 n) ∧
      (findLve memMapBuffer data s).bp = s.bp := by
  have hax : lo s.eax - 1#16 = BitVec.ofNat 16 n := by
    rw [h, BitVec.ofNat_add, BitVec.add_sub_cancel]
  simp only [findLve, RealMode.lodsd, hax, lo_mul_twenty, lo_setLo, entryAt, BitVec.ofNat_add,
    BitVec.add_assoc, and_self]

/-- The search ends at the last entry of type 1, with its number on the stack. -/
theorem continueFindLve_eq {fuel : Nat} (hlast : LastRam memMapBuffer data n k) (hfuel : n ≤ fuel)
    (hax : lo s.eax = BitVec.ofNat 16 n) (hstack : s.stack.Holds vs)
    (hlen : vs.length + 1 < 2 ^ 14) :
    ∃ t, continueFindLve memMapBuffer data fuel s = some t ∧
      lo t.edi = memMapBuffer + BitVec.ofNat 16 (20 * k) ∧
      t.stack.Holds (BitVec.ofNat 16 k :: vs) ∧ t.stack.sp = s.stack.sp - 2#16 ∧ t.bp = s.bp := by
  induction n generalizing fuel s with
  | zero => exact absurd hlast.lt (Nat.not_lt_zero k)
  | succ n ih =>
    obtain ⟨fuel, rfl⟩ : ∃ m, fuel = m + 1 := ⟨fuel - 1, by omega⟩
    obtain ⟨heax, hedi, hpush, hbp⟩ := findLve_eq memMapBuffer data hax
    have hheld := hstack.push (BitVec.ofNat 16 n) hlen
    rw [continueFindLve]
    by_cases hk : k = n
    · subst hk
      rw [if_pos (heax.trans hlast.type)]
      exact ⟨_, rfl, hedi, by rwa [hpush], by rw [hpush]; rfl, hbp⟩
    · have hrest : LastRam memMapBuffer data n k :=
        ⟨by have := hlast.lt; omega, hlast.type, fun j hj hjn ↦ hlast.later j hj (by omega)⟩
      rw [if_neg fun h ↦ hlast.later n hrest.lt n.lt_succ_self (heax.symm.trans h), hpush]
      have hpop := hheld.pop
      have hsp : (s.stack.push (BitVec.ofNat 16 n)).pop.2.sp = s.stack.sp := by simp
      obtain ⟨t, hrun, ht⟩ := ih hrest (Nat.le_of_succ_le_succ hfuel)
        (s := { findLve memMapBuffer data s with
          edx := setLo (findLve memMapBuffer data s).edx 0#16
          eax := setLo (findLve memMapBuffer data s).eax (s.stack.push (BitVec.ofNat 16 n)).pop.1
          stack := (s.stack.push (BitVec.ofNat 16 n)).pop.2 })
        ((lo_setLo _ _).trans hpop.1) hpop.2
      rw [hsp, hbp] at ht
      exact ⟨t, hrun, ht⟩

/-! ## The size -/

theorem baseAddr_add_limit (e : MemMapEntry) :
    (e.baseAddr + e.limit).setWidth 32 = e.baseAddrL + e.limitL := by
  rw [BitVec.setWidth_add _ _ (by decide)]
  congr 1 <;> ext i hi <;> simp [MemMapEntry.baseAddr, MemMapEntry.limit]

theorem div_eq {divisor : Word} (hedx : s.edx = 0#32) (hdivisor : divisor ≠ 0#32) :
    s.div divisor = some { s with eax := s.eax / divisor, edx := s.eax % divisor } := by
  have hdividend : s.edx.setWidth 64 <<< 32 ||| s.eax.setWidth 64 = s.eax.setWidth 64 := by
    simp [hedx]
  have hquotient : (s.eax.setWidth 64 / divisor.setWidth 64).toNat = (s.eax / divisor).toNat := by
    rw [BitVec.toNat_udiv, BitVec.toNat_setWidth_of_le (by decide),
      BitVec.toNat_setWidth_of_le (by decide), BitVec.toNat_udiv]
  have hremainder : (s.eax.setWidth 64 % divisor.setWidth 64).toNat = (s.eax % divisor).toNat := by
    rw [BitVec.toNat_umod, BitVec.toNat_setWidth_of_le (by decide),
      BitVec.toNat_setWidth_of_le (by decide), BitVec.toNat_umod]
  have hfits : ¬(divisor = 0#32 ∨ 2 ^ 32 ≤ (s.eax / divisor).toNat) := by
    simpa [hdivisor] using (s.eax / divisor).isLt
  rw [RealMode.div]
  simp only [hdividend, hquotient, if_neg hfits, Option.some.injEq, RealMode.mk.injEq, true_and]
  refine ⟨?_, ?_, trivial⟩ <;> apply BitVec.eq_of_toNat_eq
  · rw [BitVec.toNat_setWidth, hquotient, Nat.mod_eq_of_lt (BitVec.isLt _)]
  · rw [BitVec.toNat_setWidth, hremainder, Nat.mod_eq_of_lt (BitVec.isLt _)]

theorem getLastValidEntry_eq (data : ByteSegment)
    (hedi : lo s.edi = memMapBuffer + BitVec.ofNat 16 (20 * k)) :
    ∃ t, getLastValidEntry data s = some t ∧
      t.eax = ((entryAt memMapBuffer data k).baseAddr +
        (entryAt memMapBuffer data k).limit).setWidth 32 / 0x100000#32 ∧ t.stack = s.stack ∧ t.bp = s.bp := by
  refine ⟨_, div_eq rfl (by decide), ?_, rfl, rfl⟩
  rw [baseAddr_add_limit]
  simp only [RealMode.lodsd, lo_setLo, hedi, entryAt, BitVec.ofNat_add, BitVec.add_assoc]
  rw [BitVec.add_comm]
  rfl

/-- The number of the entry goes to `di`, and every word pushed above it one place further. -/
theorem calcPhyMemSize_eq {memMapCount : BitVec 16}
    (hlast : LastRam memMapBuffer data memMapCount.toNat k) (ip : BitVec 16) (s : RealMode) :
    ∃ t, calcPhyMemSize memMapBuffer data memMapCount ip s = some (ip, t) ∧
      t.eax = ((entryAt memMapBuffer data k).baseAddr +
        (entryAt memMapBuffer data k).limit).setWidth 32 / 0x100000#32 ∧
      lo t.edi = BitVec.ofNat 16 k ∧ lo t.esi = lo s.edi ∧
      t.edx = join (lo s.edx) (lo s.esi) ∧ t.ebx = join (lo s.ebx) (hi s.edx) ∧
      t.bp = s.bp ∧ t.stack.sp = s.stack.sp := by
  have hpushed := holds_pushRegs (holds_enter ip s) (by simp)
  obtain ⟨t, hfind, hedi, hheld, hsp, hbp⟩ := continueFindLve_eq hlast memMapCount.isLt.le
    (s := { (s.enter ip).pushRegs with
      edx := setLo (s.enter ip).pushRegs.edx 0#16
      eax := setLo (s.enter ip).pushRegs.eax memMapCount })
    (by rw [lo_setLo, BitVec.ofNat_toNat, BitVec.setWidth_eq]) hpushed (by simp [RealMode.saved])
  obtain ⟨u, hget, heax, hstack, hubp⟩ := getLastValidEntry_eq data hedi
  rw [← hstack] at hheld hsp
  obtain ⟨hdi, hsi, hedx, hebx, hrest⟩ := popRegs_eq hheld
  have hbp' : u.popRegs.bp = s.stack.sp - 2#16 - 2#16 := hubp.trans hbp
  have hframe : u.popRegs.stack.slot 1 = u.popRegs.bp := by
    rw [WordStack.slot, sp_popRegs, hsp, hbp', Nat.mul_one]
    simp only [sp_pushRegs, sp_enter]
    ring
  have hleave := leaveRet_eq (s := u.popRegs) (by
    rw [← hframe]
    exact hrest.drop 1)
  refine ⟨{ u.popRegs with bp := s.bp, stack := { u.popRegs.stack with
    sp := u.popRegs.bp + 2#16 + 2#16 } }, ?_, heax, hdi, hsi, hedx, hebx, rfl, ?_⟩
  · rw [calcPhyMemSize]
    dsimp only
    rw [hfind, Option.bind_some, hget, Option.map_some, hleave]
  · show u.popRegs.bp + 2#16 + 2#16 = s.stack.sp
    rw [hbp']
    ring

/-- **What the function owes to its callers.** It keeps it if and only if the words pushed on entry
are all the number of the last entry of type 1. -/
theorem respected_iff {memMapCount : BitVec 16}
    (hlast : LastRam memMapBuffer data memMapCount.toNat k) (ip : BitVec 16) (s : RealMode) :
    (∃ t, calcPhyMemSize memMapBuffer data memMapCount ip s = some (ip, t) ∧
      Respected (entryAt memMapBuffer data k) s t) ↔ ∀ w ∈ s.saved, w = BitVec.ofNat 16 k := by
  obtain ⟨t, hrun, heax, hdi, hsi, hedx, hebx, -, hsp⟩ := calcPhyMemSize_eq hlast ip s
  have hwords : (∀ w ∈ s.saved, w = BitVec.ofNat 16 k) ↔
      t.ebx = s.ebx ∧ t.edx = s.edx ∧ lo t.esi = lo s.esi ∧ lo t.edi = lo s.edi := by
    rw [hebx, hedx, hsi, hdi, join_eq_iff, join_eq_iff]
    simp only [RealMode.saved, List.forall_mem_cons, List.not_mem_nil]
    grind
  rw [hwords]
  constructor
  · rintro ⟨u, hu, h⟩
    obtain rfl : t = u := congrArg Prod.snd (Option.some.inj (hrun.symm.trans hu))
    exact ⟨h.ebx, h.edx, h.si, h.di⟩
  · rintro ⟨hebx, hedx, hsi, hdi⟩
    exact ⟨t, hrun, heax, hebx, hedx, hsi, hdi, hsp⟩

/-- A map with an entry of type 1, below 4 GB. -/
def ramEntry (baseAddrL limitL : Word) : ByteSegment :=
  ByteSegment.store (fun _ ↦ 0#8) 0x400#16 ([baseAddrL, 0#32, limitL, 0#32, 1#32].flatMap fun v ↦
    [v.extractLsb' 0 8, v.extractLsb' 8 8, v.extractLsb' 16 8, v.extractLsb' 24 8])

theorem lastRam_ramEntry (baseAddrL limitL : Word) :
    LastRam 0x400#16 (ramEntry baseAddrL limitL) (1#16).toNat 0 where
  lt := by decide
  type := by
    rw [ramEntry, entryAt_store (by simp) (by simp)]
    show ByteSegment.ofBytes 1#8 0#8 0#8 0#8 = 1#32
    decide
  later j hj hlt := absurd hlt (Nat.not_lt.mpr hj)

/-- Registers that are zero but for `edi`. -/
def onlyEdi (edi : Word) : RealMode :=
  ⟨0#32, 0#32, 0#32, 0#32, edi, 0#16, ⟨fun _ ↦ 0#16, 0xFF0#16⟩⟩

theorem respected_zero :
    ∃ t, calcPhyMemSize 0x400#16 (ramEntry 0#32 0xA0000#32) 1#16 0x100#16 (onlyEdi 0#32) =
        some (0x100#16, t) ∧
      Respected (entryAt 0x400#16 (ramEntry 0#32 0xA0000#32) 0) (onlyEdi 0#32) t :=
  (respected_iff (lastRam_ramEntry 0#32 0xA0000#32) 0x100#16 (onlyEdi 0#32)).mpr (by
    simp [RealMode.saved, onlyEdi, lo, hi])

/-- `di` comes back as the number of the entry. -/
theorem not_forall_respected :
    ¬ ∀ s, ∃ t,
      calcPhyMemSize 0x400#16 (ramEntry 0#32 0xA0000#32) 1#16 0x100#16 s = some (0x100#16, t) ∧
      Respected (entryAt 0x400#16 (ramEntry 0#32 0xA0000#32) 0) s t := by
  intro h
  obtain ⟨t, hrun, hrespected⟩ := h (onlyEdi 0x1234#32)
  obtain ⟨u, heq, -, hdi, -⟩ := calcPhyMemSize_eq (lastRam_ramEntry _ _) 0x100#16
    (onlyEdi 0x1234#32)
  obtain rfl : t = u := congrArg Prod.snd (Option.some.inj (hrun.symm.trans heq))
  exact absurd (hdi.symm.trans hrespected.di) (by decide)

end

end AphroditeOs
