import Mathlib

/-!
# String instructions of real mode

`rep movsw` and `rep stosw` with the direction flag clear, on memory by linear address.  The offsets
wrap at 64 KB.
-/

namespace StringMove

def linear (seg off : BitVec 16) : Nat := 16 * seg.toNat + off.toNat

/-- The two bytes at `p` set to `lo` and `hi`. -/
def put (mem : Nat → BitVec 8) (p : Nat) (lo hi : BitVec 8) : Nat → BitVec 8 :=
  Function.update (Function.update mem p lo) (p + 1) hi

variable {mem : Nat → BitVec 8} {lo hi : BitVec 8} {p a : Nat}

section

variable {ds es ax : BitVec 16}

end

end StringMove
