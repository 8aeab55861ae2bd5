import AphroditeOs.Cxx.Atexit

/-!
# The bound of the destructor table (`cxx/icxxabi.cc`)

`__cxa_atexit` compares the count with `ATEXIT_MAX_FUNCS` before a write, and `__cxa_finalize(f)`
looks for `f` from the count on.
-/

namespace AphroditeOs

namespace Atexit

/-- The index that a call of `__cxa_atexit` writes to. -/
def written (s : Atexit) : Option Word :=
  if s.funcCount > BitVec.ofNat 32 atexitMaxFuncs then none else some s.funcCount

/-- A call of `__cxa_atexit` with the members of `e`. -/
def register (e : AtexitFuncEntry) (s : Atexit) : Word × Atexit :=
  s.cxaAtexit e.destructor e.paraPtr e.dsoHandle

/-- The calls of `__cxa_atexit`, one after the other. -/
def registerAll (s : Atexit) : List AtexitFuncEntry → Atexit
  | [] => s
  | e :: es => registerAll (s.register e).2 es

/-- The call puts `e` into the table. -/
def Stored (e : AtexitFuncEntry) (s : Atexit) : Prop :=
  s.funcCount.toNat < atexitMaxFuncs ∧
    (s.register e).2 =
      { funcs := Function.update s.funcs s.funcCount e, funcCount := s.funcCount + 1#32 }

/-- What a call owes to the table. -/
structure KeepsBound (e : AtexitFuncEntry) (s : Atexit) : Prop where
  inside : ∀ i, s.written = some i → i.toNat < atexitMaxFuncs
  zero_iff : (s.register e).1 = 0#32 ↔ s.Stored e
  full : atexitMaxFuncs ≤ s.funcCount.toNat → s.register e = (-1#32, s)

variable {s : Atexit} {e : AtexitFuncEntry} {es : List AtexitFuncEntry}

theorem toNat_atexitMaxFuncs : (BitVec.ofNat 32 atexitMaxFuncs).toNat = 128 := rfl

theorem guard_iff : s.funcCount > BitVec.ofNat 32 atexitMaxFuncs ↔ 128 < s.funcCount.toNat := by
  rw [gt_iff_lt, BitVec.lt_def, toNat_atexitMaxFuncs]

theorem register_of_le (h : s.funcCount.toNat ≤ 128) : s.register e =
    (0#32, { funcs := Function.update s.funcs s.funcCount e
             funcCount := s.funcCount + 1#32 }) := by
  have hguard : ¬ s.funcCount > BitVec.ofNat 32 atexitMaxFuncs := by
    rw [guard_iff]
    omega
  rw [register, cxaAtexit, if_neg hguard]

theorem register_of_lt (h : 128 < s.funcCount.toNat) : s.register e = (-1#32, s) := by
  rw [register, cxaAtexit, if_pos (guard_iff.mpr h)]

theorem written_of_le (h : s.funcCount.toNat ≤ 128) : s.written = some s.funcCount := by
  rw [written, if_neg]
  rw [guard_iff]
  omega

theorem written_of_lt (h : 128 < s.funcCount.toNat) : s.written = none := by
  rw [written, if_pos (guard_iff.mpr h)]

/-- A call keeps the bound but at the count that the guard lets through. -/
theorem keepsBound_iff : s.KeepsBound e ↔ s.funcCount.toNat ≠ 128 := by
  constructor
  · intro h heq
    have hlt := h.inside s.funcCount (written_of_le (by omega))
    rw [heq] at hlt
    exact absurd hlt (by decide)
  · intro hne
    by_cases hlt : 128 < s.funcCount.toNat
    · have hreg := @register_of_lt s e hlt
      refine ⟨fun i hi ↦ ?_, ?_, fun _ ↦ hreg⟩
      · rw [written_of_lt hlt] at hi
        exact absurd hi (by simp)
      · rw [hreg]
        refine iff_of_false (show ¬ -1#32 = 0#32 by decide) fun hstored ↦ ?_
        have hroom : s.funcCount.toNat < 128 := hstored.1
        omega
    · have hroom : s.funcCount.toNat < 128 := by omega
      have hreg := @register_of_le s e (by omega)
      refine ⟨fun i hi ↦ ?_, ?_, fun hfull ↦ absurd hroom (not_lt.mpr hfull)⟩
      · rw [written_of_le (by omega)] at hi
        rwa [← Option.some.inj hi]
      · rw [hreg]
        exact iff_of_true rfl ⟨hroom, by rw [hreg]⟩

/-- The count goes one past the table and stays there, where it is no part of the words behind the
table. -/
theorem toNat_funcCount_registerAll (h : s.funcCount.toNat ≤ 129) :
    (s.registerAll es).funcCount.toNat = min (s.funcCount.toNat + es.length) 129 := by
  induction es generalizing s with
  | nil =>
    show s.funcCount.toNat = min s.funcCount.toNat 129
    omega
  | cons e es ih =>
    rw [registerAll, List.length_cons]
    by_cases hlt : 128 < s.funcCount.toNat
    · rw [register_of_lt hlt, ih h]
      omega
    · rw [register_of_le (by omega)]
      have hcount : (s.funcCount + 1#32).toNat = s.funcCount.toNat + 1 := by
        rw [BitVec.toNat_add, show (1#32).toNat = 1 from rfl, Nat.mod_eq_of_lt (by omega)]
      rw [ih (by rw [hcount]; omega), hcount]
      omega

end Atexit

/-- **The table is kept exactly by as many calls as it has entries**: the next one is let through
and written behind it. -/
theorem keepsBound_registerAll_iff (s : Atexit) (hstart : s.funcCount = 0#32)
    (calls : List AtexitFuncEntry) :
    (∀ before e after, calls = before ++ e :: after → (s.registerAll before).KeepsBound e) ↔
      calls.length ≤ atexitMaxFuncs := by
  have hcount : ∀ before, (s.registerAll before).funcCount.toNat = min before.length 129 := by
    intro before
    have hzero : s.funcCount.toNat = 0 := by rw [hstart]; rfl
    rw [Atexit.toNat_funcCount_registerAll (by omega), hzero, Nat.zero_add]
  constructor
  · intro h
    by_contra hlong
    have hlt : 128 < calls.length := not_le.mp hlong
    have hkeeps := h (calls.take 128) calls[128] (calls.drop 129) (by simp)
    rw [Atexit.keepsBound_iff, hcount, List.length_take] at hkeeps
    omega
  · intro hroom before e after hsplit
    have hlen := congrArg List.length hsplit
    rw [List.length_append, List.length_cons] at hlen
    have hle : calls.length ≤ 128 := hroom
    rw [Atexit.keepsBound_iff, hcount]
    omega

/-- The first of two calls at the boot. -/
theorem keepsBound_two :
    (Atexit.start.registerAll []).KeepsBound ⟨0x1000#32, 1#32, 0#32⟩ :=
  (keepsBound_registerAll_iff .start rfl
    [⟨0x1000#32, 1#32, 0#32⟩, ⟨0x2000#32, 2#32, 0#32⟩]).mpr (by decide) [] _
    [⟨0x2000#32, 2#32, 0#32⟩] rfl

/-- The 129th call returns 0 and writes behind the table. -/
theorem not_forall_keepsBound :
    ¬ ∀ calls before : List AtexitFuncEntry, ∀ e after, calls = before ++ e :: after →
      (Atexit.start.registerAll before).KeepsBound e := by
  intro h
  have hkeeps := h _ (List.replicate 128 ⟨0x1000#32, 0#32, 0#32⟩) ⟨0x1000#32, 0#32, 0#32⟩ [] rfl
  rw [Atexit.keepsBound_iff, Atexit.toNat_funcCount_registerAll (by decide)] at hkeeps
  exact hkeeps (by simp [Atexit.start])

/-! ## One destructor -/

namespace Atexit

variable {s : Atexit} {es : List AtexitFuncEntry}

/-- The indices whose entries the search compares with `f`. -/
def examinedFrom (s : Atexit) (f : Word) : Nat → Word → List Word
  | 0, _ => []
  | fuel + 1, i =>
    i :: if (s.funcs i).destructor ≠ f then s.examinedFrom f fuel (i + 1#32) else []

def examined (s : Atexit) (f : Word) (fuel : Nat) : List Word :=
  s.examinedFrom f fuel s.funcCount

/-- What `__cxa_finalize(f)` is for, in a table that `entries` have been registered in. -/
structure FinalizesOne (s : Atexit) (entries : List AtexitFuncEntry) (f : Word) : Prop where
  inside : ∀ fuel, ∀ i ∈ s.examined f fuel, i.toNat < entries.length
  last : ∀ i (hi : i < entries.length), entries[i].destructor = f →
    (∀ j (hj : j < entries.length), i < j → entries[j].destructor ≠ f) →
    ∃ fuel, s.cxaFinalize fuel f = some ([(f, entries[i].paraPtr)],
      { s with funcs := Function.update s.funcs (BitVec.ofNat 32 i)
                 { entries[i] with destructor := 0#32 } })
  absent : (∀ e ∈ entries, e.destructor ≠ f) → ∃ fuel, s.cxaFinalize fuel f = some ([], s)

theorem Holds.registerAll {entries : List AtexitFuncEntry} (h : s.Holds entries)
    (hroom : entries.length + es.length ≤ atexitMaxFuncs) :
    (s.registerAll es).Holds (entries ++ es) := by
  induction es generalizing s entries with
  | nil =>
    rw [List.append_nil]
    exact h
  | cons e es ih =>
    rw [List.length_cons] at hroom
    have hnext := (h.cxaAtexit (by omega) e.destructor e.paraPtr e.dsoHandle).2
    have hrest := ih hnext (by rw [List.length_append, List.length_singleton]; omega)
    rw [List.append_assoc] at hrest
    exact hrest

/-- The search starts behind the entries. -/
theorem Holds.search_outside {entries : List AtexitFuncEntry} (h : s.Holds entries)
    (hroom : entries.length ≤ atexitMaxFuncs) (f : Word) : ¬ s.FinalizesOne entries f := by
  intro hone
  have hsmall : entries.length ≤ 128 := hroom
  have hlt := hone.inside 1 s.funcCount List.mem_cons_self
  rw [h.funcCount, BitVec.toNat_ofNat, Nat.mod_eq_of_lt (by omega)] at hlt
  exact Nat.lt_irrefl _ hlt

/-- A function that no index holds is looked for without end. -/
theorem cxaFinalize_eq_none {f : Word} (hf : f ≠ 0#32) (h : ∀ i, (s.funcs i).destructor ≠ f)
    (fuel : Nat) : s.cxaFinalize fuel f = none := by
  have hnone : ∀ i, WhileLoop.run (fun i ↦ (s.funcs i).destructor ≠ f) (· + 1#32) fuel i =
      none := by
    induction fuel with
    | zero =>
      intro i
      rfl
    | succ fuel ih =>
      intro i
      rw [WhileLoop.run, if_pos (h i), ih]
  rw [cxaFinalize, if_neg hf, findUp, hnone]
  rfl

end Atexit

/-- **One destructor is never finalised as it should be**: the first entry compared is the one
behind the last. -/
theorem not_finalizesOne (s : Atexit) (hstart : s.funcCount = 0#32)
    (entries : List AtexitFuncEntry) (hroom : entries.length ≤ atexitMaxFuncs) (f : Word) :
    ¬ (s.registerAll entries).FinalizesOne entries f := by
  have hempty : s.Holds [] := by
    refine ⟨hstart, fun i hi ↦ ?_⟩
    simp at hi
  have hholds : (s.registerAll entries).Holds ([] ++ entries) :=
    hempty.registerAll (by rw [List.length_nil, Nat.zero_add]; exact hroom)
  exact hholds.search_outside hroom f

/-- A destructor registered at the boot. -/
theorem not_finalizesOne_one :
    ¬ (Atexit.start.registerAll [⟨0x1000#32, 1#32, 0#32⟩]).FinalizesOne
      [⟨0x1000#32, 1#32, 0#32⟩] 0x1000#32 :=
  not_finalizesOne .start rfl _ (by decide) _

/-- Entry 1 is compared, of a table with entry 0 only. -/
theorem not_forall_finalizesOne :
    ¬ ∀ entries : List AtexitFuncEntry, entries.length ≤ atexitMaxFuncs → ∀ f, f ≠ 0#32 →
      (Atexit.start.registerAll entries).FinalizesOne entries f := by
  intro h
  have hone := h [⟨0x1000#32, 1#32, 0#32⟩] (by decide) 0x1000#32 (by decide)
  exact absurd (hone.inside 1 1#32 (by decide)) (by decide)

end AphroditeOs
