import AphroditeOs.Lib.StringMove
import AphroditeOs.Loader.Load
import AphroditeOs.Realmode.Descriptor

/-!
# From the boot sector to the kernel (`boot/boot.asm`, `boot/setup.asm`)

The boot sector moves itself out of the way and reads the setup code and the kernel; the setup code
moves the kernel to 0 and jumps there in protected mode.
-/

namespace AphroditeOs

open StringMove

/-! ## The boot sector -/

def SetupAsm.kernelCs : BitVec 16 := 0x10#16

section

variable {disk : Nat → Byte} {secs p : Nat} {l l' : Loader}

end

/-! ### The move of the kernel -/

section

variable {boot setup kernel image : List Byte} {disk : Nat → Byte}

end

end AphroditeOs
