import Mathlib

/-!
# The disk image (`tools/build.c`)

The boot sector, four sectors of setup code, and the kernel.
-/

namespace AphroditeOs

abbrev Byte := BitVec 8

def setupSize : Nat := 2048

def kernelSize : Nat := 192 * 1024

/-- The loop that copies a file to standard output, a buffer at a time. -/
def copyFile (file : List Byte) : List Byte :=
  if file = [] then [] else file.take 1024 ++ copyFile (file.drop 1024)
termination_by file.length
decreasing_by
  rw [List.length_drop]
  have := List.length_pos_iff.mpr ‹_›
  omega

/-- The loop that fills the setup code up to `SETUP_SIZE`, from byte `i` on. -/
def patchSetup (i : Nat) : List Byte :=
  if i < setupSize then
    let patchBytes := min (setupSize - i) 1024
    List.replicate patchBytes 0#8 ++ patchSetup (i + patchBytes)
  else []
termination_by setupSize - i

def bootSig (boot : List Byte) : BitVec 16 := boot.getD 511 0#8 ++ boot.getD 510 0#8

/-- What the program writes when it does not die. -/
def buildImage (boot setup kernel : List Byte) : Option (List Byte) :=
  if boot.length ≠ 0x200 then none
  else if bootSig boot ≠ 0xAA55#16 then none
  else if setupSize < setup.length then none
  else if kernelSize < kernel.length then none
  else some (boot.take 512 ++ copyFile setup ++ patchSetup setup.length ++ copyFile kernel)

theorem copyFile_eq (file : List Byte) : copyFile file = file := by
  induction file using copyFile.induct with
  | case1 => rw [copyFile, if_pos rfl]
  | case2 file hfile ih => rw [copyFile, if_neg hfile, ih, List.take_append_drop]

theorem length_patchSetup {i : Nat} (hi : i ≤ setupSize) :
    (patchSetup i).length = setupSize - i := by
  induction i using patchSetup.induct with
  | case1 i hlt patchBytes ih =>
    rw [patchSetup, if_pos hlt]
    dsimp only
    rw [List.length_append, List.length_replicate, ih (by omega)]
    omega
  | case2 i hge =>
    rw [patchSetup, if_neg hge, List.length_nil]
    omega

theorem buildImage_eq {boot setup kernel : List Byte} (hboot : boot.length = 0x200)
    (hsig : bootSig boot = 0xAA55#16) (hsetup : setup.length ≤ setupSize)
    (hkernel : kernel.length ≤ kernelSize) :
    buildImage boot setup kernel = some (boot ++ setup ++ patchSetup setup.length ++ kernel) := by
  rw [buildImage, if_neg (not_not.mpr hboot), if_neg (not_not.mpr hsig),
    if_neg (Nat.not_lt.mpr hsetup), if_neg (Nat.not_lt.mpr hkernel), copyFile_eq, copyFile_eq,
    List.take_of_length_le hboot.le]

/-- The kernel begins at sector 5, and all of it fits into 192 KB. -/
theorem buildImage_spec {boot setup kernel image : List Byte}
    (h : buildImage boot setup kernel = some image) :
    kernel.length ≤ kernelSize ∧ ∃ front, front.length = 5 * 512 ∧ image = front ++ kernel := by
  unfold buildImage at h
  split_ifs at h with hboot hsig hsetup hkernel
  have hfront : (boot.take 512 ++ copyFile setup ++ patchSetup setup.length).length = 5 * 512 := by
    rw [List.length_append, List.length_append, copyFile_eq, length_patchSetup (by omega),
      List.length_take]
    unfold setupSize at hsetup ⊢
    omega
  refine ⟨by omega, _, hfront, ?_⟩
  rw [copyFile_eq kernel] at h
  exact (Option.some.inj h).symm

end AphroditeOs
