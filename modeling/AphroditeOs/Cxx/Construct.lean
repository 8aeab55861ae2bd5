import AphroditeOs.Page

/-!
# The constructors of global objects (`cxx/icxxabi.cc`, `vmlinuz.lds.S`)

The linker script lays out a count, the pointers of the `.ctor` section and a null pointer;
`construct` takes the count as the number of calls.  Memory is taken by double words, at the byte
addresses where they lie.
-/

namespace AphroditeOs

/-- `LONG((__CTOR_LIST__ - __CTOR_END__) / 4 - 2)` -/
def ctorCount (ctorList ctorEnd : Word) : Word := (ctorList - ctorEnd).sdiv 4#32 - 2#32

/-- The part of `.data` that holds the pointers `ctors`. -/
structure CtorSection (mem : Word → Word) (ctors : List Word) where
  ctorList : Word
  fits : ctorList.toNat + 4 * (ctors.length + 2) ≤ 2 ^ 32
  count : mem ctorList =
    ctorCount ctorList (ctorList + BitVec.ofNat 32 (4 * (ctors.length + 2)))
  pointer : ∀ k (hk : k < ctors.length), mem (ctorList + BitVec.ofNat 32 (4 * (k + 1))) = ctors[k]
  null : mem (ctorList + BitVec.ofNat 32 (4 * (ctors.length + 1))) = 0#32

/-- `while(total_ctors)`: the pointers that are called; `none` when the fuel runs out. -/
def callCtors (mem : Word → Word) : Nat → Word → Word → Option (List Word)
  | 0, _, _ => none
  | fuel + 1, pCtors, totalCtors =>
    if totalCtors ≠ 0#32 then
      (callCtors mem fuel (pCtors + 4#32) (totalCtors - 1#32)).map (mem pCtors :: ·)
    else some []

def construct (fuel : Nat) (mem : Word → Word) (ctorList : Word) : Option (List Word) :=
  callCtors mem fuel (ctorList + 4#32) (mem ctorList)

/-! ## The loop -/

section Loop

variable {mem : Word → Word}

/-- The `n` words from an address on. -/
def wordsFrom (mem : Word → Word) (n : Nat) (p : Word) : List Word :=
  (List.range n).map fun k ↦ mem (p + BitVec.ofNat 32 (4 * k))

theorem add_four_ofNat (p : Word) (k : Nat) :
    p + 4#32 + BitVec.ofNat 32 (4 * k) = p + BitVec.ofNat 32 (4 * (k + 1)) := by
  rw [Nat.mul_add, BitVec.ofNat_add, BitVec.add_assoc, BitVec.add_comm (BitVec.ofNat 32 (4 * k))]

theorem wordsFrom_succ (n : Nat) (p : Word) :
    wordsFrom mem (n + 1) p = mem p :: wordsFrom mem n (p + 4#32) := by
  rw [wordsFrom, List.range_succ_eq_map, List.map_cons, List.map_map, Nat.mul_zero]
  simp [Function.comp_def, add_four_ofNat, wordsFrom]

theorem toNat_sub_one {total : Word} (h : total ≠ 0#32) :
    (total - 1#32).toNat + 1 = total.toNat := by
  bv_omega

/-- The loop calls as many pointers as the count says. -/
theorem callCtors_eq {fuel : Nat} {p total : Word} (h : total.toNat < fuel) :
    callCtors mem fuel p total = some (wordsFrom mem total.toNat p) := by
  induction fuel generalizing p total with
  | zero => omega
  | succ fuel ih =>
    rw [callCtors]
    by_cases hzero : total = 0#32
    · rw [if_neg (not_not.mpr hzero), hzero]
      rfl
    · have hless := toNat_sub_one hzero
      rw [if_pos hzero, ih (by omega), ← hless, wordsFrom_succ]
      rfl

theorem callCtors_length {fuel : Nat} {p total : Word} {calls : List Word}
    (h : callCtors mem fuel p total = some calls) : calls.length = total.toNat := by
  induction fuel generalizing p total calls with
  | zero => exact absurd h (by simp [callCtors])
  | succ fuel ih =>
    rw [callCtors] at h
    by_cases hzero : total = 0#32
    · rw [if_neg (not_not.mpr hzero)] at h
      rw [← Option.some.inj h, hzero]
      rfl
    · rw [if_pos hzero] at h
      obtain ⟨rest, hrest, rfl⟩ := Option.map_eq_some_iff.mp h
      rw [List.length_cons, ih hrest, toNat_sub_one hzero]

end Loop

/-! ## The count -/

section Count

variable {n : Nat} {ctorList : Word}

theorem ctorList_sub : ctorList - (ctorList + BitVec.ofNat 32 (4 * (n + 2))) =
    -BitVec.ofNat 32 (4 * (n + 2)) := by
  ring

/-- The count is the negative of what is wanted, less four, in a section below half the memory. -/
theorem toInt_ctorCount (h : n + 2 ≤ 2 ^ 29) :
    (ctorCount ctorList (ctorList + BitVec.ofNat 32 (4 * (n + 2)))).toInt = -(n + 4) := by
  have hdiff : (ctorList - (ctorList + BitVec.ofNat 32 (4 * (n + 2)))).toInt = 4 * -(n + 2) := by
    rw [ctorList_sub, BitVec.toInt_neg, BitVec.toInt_ofNat']
    simp only [Int.bmod_def]
    omega
  rw [ctorCount, BitVec.toInt_sub, BitVec.toInt_sdiv, hdiff, show (4#32).toInt = 4 from rfl,
    Int.mul_tdiv_cancel_left _ (by decide), show (2#32).toInt = 2 from rfl]
  simp only [Int.bmod_def]
  omega

-- the difference of the addresses is positive as a signed word
theorem toInt_ctorCount_of_lt (h : 2 ^ 29 < n + 2) (hle : n + 2 ≤ 2 ^ 30) :
    (ctorCount ctorList (ctorList + BitVec.ofNat 32 (4 * (n + 2)))).toInt = 2 ^ 30 - n - 4 := by
  have hdiff : (ctorList - (ctorList + BitVec.ofNat 32 (4 * (n + 2)))).toInt =
      4 * (2 ^ 30 - (n + 2)) := by
    rw [ctorList_sub, BitVec.toInt_neg, BitVec.toInt_ofNat']
    simp only [Int.bmod_def]
    omega
  rw [ctorCount, BitVec.toInt_sub, BitVec.toInt_sdiv, hdiff, show (4#32).toInt = 4 from rfl,
    Int.mul_tdiv_cancel_left _ (by decide), show (2#32).toInt = 2 from rfl]
  simp only [Int.bmod_def]
  omega

theorem ctorCount_ne (h : n + 2 ≤ 2 ^ 30) :
    ctorCount ctorList (ctorList + BitVec.ofNat 32 (4 * (n + 2))) ≠ BitVec.ofNat 32 n := by
  intro heq
  have hint := congrArg BitVec.toInt heq
  have hn : (BitVec.ofNat 32 n).toInt = n := by
    rw [BitVec.toInt_ofNat']
    simp only [Int.bmod_def]
    omega
  rw [hn] at hint
  by_cases hhalf : n + 2 ≤ 2 ^ 29
  · rw [toInt_ctorCount hhalf] at hint
    omega
  · rw [toInt_ctorCount_of_lt (not_le.mp hhalf) h] at hint
    omega

end Count

/-! ## The section -/

namespace CtorSection

variable {mem : Word → Word} {ctors : List Word}

theorem length_le (s : CtorSection mem ctors) : ctors.length + 2 ≤ 2 ^ 30 := by
  have hfits := s.fits
  omega

theorem mem_pointer (s : CtorSection mem ctors) (k : Nat) (hk : k < ctors.length) :
    mem (s.ctorList + 4#32 + BitVec.ofNat 32 (4 * k)) = ctors[k] := by
  rw [add_four_ofNat, s.pointer k hk]

theorem wordsFrom_eq (s : CtorSection mem ctors) :
    wordsFrom mem ctors.length (s.ctorList + 4#32) = ctors := by
  apply List.ext_getElem
  · simp [wordsFrom]
  · intro k _ hk
    simp [wordsFrom, s.mem_pointer k hk]

/-- **`construct` is right exactly when the count is the number of the pointers.** -/
theorem construct_iff (s : CtorSection mem ctors) :
    (∃ fuel, construct fuel mem s.ctorList = some ctors) ↔
      mem s.ctorList = BitVec.ofNat 32 ctors.length := by
  have hsmall : ctors.length < 2 ^ 32 := by
    have hle := s.length_le
    omega
  constructor
  · rintro ⟨fuel, hcalls⟩
    have hlen := callCtors_length hcalls
    rw [hlen, BitVec.ofNat_toNat, BitVec.setWidth_eq]
  · intro hcount
    have hnat : (mem s.ctorList).toNat = ctors.length := by
      rw [hcount, BitVec.toNat_ofNat, Nat.mod_eq_of_lt hsmall]
    refine ⟨ctors.length + 1, ?_⟩
    rw [construct, callCtors_eq (by omega), hnat, s.wordsFrom_eq]

/-- The pointers are followed by a call of the null pointer. -/
theorem prefix_calls (s : CtorSection mem ctors) (h : ctors.length + 2 ≤ 2 ^ 29) :
    ∃ calls, construct (2 ^ 32) mem s.ctorList = some calls ∧ ctors ++ [0#32] <+: calls := by
  have hcalls := @callCtors_eq mem (2 ^ 32) (s.ctorList + 4#32) _ (mem s.ctorList).isLt
  refine ⟨_, hcalls, ?_⟩
  have hlast : mem (s.ctorList + 4#32 + BitVec.ofNat 32 (4 * ctors.length)) = 0#32 := by
    rw [add_four_ofNat, s.null]
  have hfirst : wordsFrom mem (ctors.length + 1) (s.ctorList + 4#32) = ctors ++ [0#32] := by
    rw [wordsFrom, List.range_succ, List.map_append, List.map_singleton, hlast]
    exact congrArg (· ++ [0#32]) s.wordsFrom_eq
  have hlong : ctors.length + 1 ≤ (mem s.ctorList).toNat := by
    have hint := @toInt_ctorCount ctors.length s.ctorList h
    rw [← s.count, BitVec.toInt_eq_toNat_cond] at hint
    split at hint <;> omega
  rw [← hfirst, wordsFrom, wordsFrom, ← Nat.min_eq_left hlong, ← List.take_range]
  exact (List.take_prefix _ _).map _

end CtorSection

/-- **No number of constructors is called as it should be.** -/
theorem not_construct (mem : Word → Word) (ctors : List Word) (s : CtorSection mem ctors) :
    ¬ ∃ fuel, construct fuel mem s.ctorList = some ctors := by
  rw [s.construct_iff, s.count]
  exact ctorCount_ne s.length_le

/-- One constructor, at `0xC0102000`, in memory that is zero elsewhere. -/
def oneCtorMemory (a : Word) : Word :=
  if a = 0xC0300000#32 then -5#32 else if a = 0xC0300004#32 then 0xC0102000#32 else 0#32

def oneCtorSection : CtorSection oneCtorMemory [0xC0102000#32] where
  ctorList := 0xC0300000#32
  fits := by decide
  count := by decide
  pointer := by
    intro k hk
    obtain rfl : k = 0 := Nat.lt_one_iff.mp hk
    rfl
  null := by decide

theorem not_construct_one :
    ¬ ∃ fuel, construct fuel oneCtorMemory 0xC0300000#32 = some [0xC0102000#32] :=
  not_construct oneCtorMemory [0xC0102000#32] oneCtorSection

/-- No constructor at all, in memory that is zero elsewhere. -/
def emptyCtorSection :
    CtorSection (Function.update (fun _ ↦ 0#32) 0xC0300000#32 (-4#32)) [] where
  ctorList := 0xC0300000#32
  fits := by decide
  count := by simp [ctorCount]
  pointer := by simp
  null := by simp

/-- The null pointer is called, of a section that holds none. -/
theorem not_forall_construct :
    ¬ ∀ mem ctors, ∀ s : CtorSection mem ctors,
      ∃ fuel, construct fuel mem s.ctorList = some ctors := by
  intro h
  have hcount := (emptyCtorSection.construct_iff).mp (h _ _ emptyCtorSection)
  exact absurd hcount (by simp [emptyCtorSection])

end AphroditeOs
