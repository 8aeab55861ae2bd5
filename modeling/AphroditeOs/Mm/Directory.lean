import AphroditeOs.Mm.Paging

/-!
# The reach of `paging_init` in the directory

A pass of `paging_init` goes to the entries `i` and `i + 768` of a directory of 1024.  Nothing but
`end_mem` stops it.
-/

namespace AphroditeOs

/-- The entries of the directory that a pass reads and writes. -/
def directoryIndices (s : PagingState) : List Nat := [s.pgDir + 768, s.pgDir]

def pagingStart (startMem : Word) (mem : BitMemory) : PagingState :=
  ⟨mem, pageAlign startMem, 0, 0#32⟩

/-- The passes of `paging_init` in C. -/
def pagingPasses (startMem endMem : Word) (dir : Nat) (mem : BitMemory) :
    Transition.System PagingState where
  Init s := s = pagingStart startMem mem
  Step s t := s.address < endMem ∧ t = pagingPass pageTable pageShared endMem dir s

/-- `paging_init` ends, and every pass stays in the directory. -/
structure KeepsToDirectory (startMem endMem : Word) (dir : Nat) (mem : BitMemory) : Prop where
  ends : ∃ fuel t, pagingLoop pageTable pageShared endMem dir fuel (pagingStart startMem mem) = some t
  inside : ∀ s, Transition.Reachable (pagingPasses startMem endMem dir mem) s → s.address < endMem →
    ∀ i ∈ directoryIndices s, i < 1024

section

variable {startMem endMem : Word} {dir : Nat} {mem : BitMemory}

-- Pass `n` goes to entry `n`.
theorem pgDir_iterate (startMem endMem : Word) (dir : Nat) (mem : BitMemory) (n : Nat) :
    ((pagingPass pageTable pageShared endMem dir)^[n] (pagingStart startMem mem)).pgDir = n := by
  rw [(iterate_pagingPass_regs pageTable pageShared endMem dir n (pagingStart startMem mem)).1]
  exact Nat.zero_add n

theorem keepsToDirectory_of_le (startMem : Word) (dir : Nat) (mem : BitMemory)
    (hend : endMem.toNat ≤ 2 ^ 30) : KeepsToDirectory startMem endMem dir mem := by
  have hcount := tableCount_le hend
  have hends := @endsAfter_tableCount endMem (pagingStart startMem mem) pageTable pageShared dir hend
    rfl
  constructor
  · have hrun := hends.run_eq (Nat.lt_succ_self _)
    rw [← pagingLoop_eq_run] at hrun
    exact ⟨_, _, hrun⟩
  · intro s hs hgo i hi
    have ⟨n, hn, heq⟩ := hends.exists_lt_of_reachable hs hgo
    have hdir : s.pgDir = n := by
      rw [heq, pgDir_iterate]
    rw [directoryIndices, List.mem_cons, List.mem_singleton] at hi
    omega

-- The pass for the address of 1 GB takes entry 1024 for the kernel window.
theorem not_keepsToDirectory_of_lt (startMem : Word) (dir : Nat) (mem : BitMemory)
    (hend : 2 ^ 30 < endMem.toNat) : ¬ KeepsToDirectory startMem endMem dir mem := by
  intro h
  have hgoes : ∀ n ≤ 256,
      ((pagingPass pageTable pageShared endMem dir)^[n] (pagingStart startMem mem)).address < endMem := by
    intro n hn
    have haddress := (iterate_pagingPass_regs pageTable pageShared endMem dir n
      (pagingStart startMem mem)).2
    rw [haddress, pagingStart, BitVec.zero_add, BitVec.lt_def, toNat_ofNat_of_lt (by omega)]
    omega
  have hreach := @WhileLoop.reachable_iterate _ (fun s ↦ s.address < endMem)
    (pagingPass pageTable pageShared endMem dir) 256 (pagingStart startMem mem)
    fun n hn ↦ hgoes n hn.le
  have hin := h.inside _ hreach (hgoes 256 le_rfl) _ List.mem_cons_self
  rw [pgDir_iterate] at hin
  exact absurd hin (by decide)

end

/-- **The reach in the directory.**  `paging_init` ends and stays in the directory exactly when
memory ends at 1 GB or below, whatever the directory holds. -/
theorem keepsToDirectory_iff (startMem endMem : Word) (dir : Nat) (mem : BitMemory) :
    KeepsToDirectory startMem endMem dir mem ↔ endMem.toNat ≤ 2 ^ 30 := by
  constructor
  · intro h
    by_contra hgt
    exact not_keepsToDirectory_of_lt startMem dir mem (Nat.lt_of_not_le hgt) h
  · exact keepsToDirectory_of_le startMem dir mem

/-- One page beyond 1 GB is too much. -/
theorem not_keepsToDirectory_oneMorePage :
    ¬ KeepsToDirectory 0x200000#32 0x40001000#32 0x101000 fun _ ↦ false :=
  not_keepsToDirectory_of_lt _ _ _ (by decide)

end AphroditeOs
