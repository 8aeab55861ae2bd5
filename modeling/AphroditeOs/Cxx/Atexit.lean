import AphroditeOs.Lib.WhileLoop
import AphroditeOs.Page

/-!
# The destructors of global objects (`cxx/icxxabi.cc`)

The table is indexed as the code indexes it; its entries are those below `ATEXIT_MAX_FUNCS`, and
what lies at the other indices is other memory.  `__cxa_finalize(NULL)` calls the entries and keeps
them.
-/

namespace AphroditeOs

def atexitMaxFuncs : Nat := 128

structure AtexitFuncEntry where
  destructor : Word
  paraPtr : Word
  dsoHandle : Word
  deriving DecidableEq, Repr

structure Atexit where
  funcs : Word → AtexitFuncEntry
  funcCount : Word

/-- A destructor and what it is called with. -/
abbrev DestructorCall := Word × Word

namespace Atexit

/-- The table in `.bss`. -/
def start : Atexit := ⟨fun _ ↦ ⟨0#32, 0#32, 0#32⟩, 0#32⟩

def cxaAtexit (f para dso : Word) (s : Atexit) : Word × Atexit :=
  if s.funcCount > BitVec.ofNat 32 atexitMaxFuncs then (-1#32, s)
  else (0#32, { funcs := Function.update s.funcs s.funcCount ⟨f, para, dso⟩
                funcCount := s.funcCount + 1#32 })

/-- The call of an entry, behind the safe guard. -/
def call (e : AtexitFuncEntry) : Option DestructorCall :=
  if e.destructor ≠ 0#32 then some (e.destructor, e.paraPtr) else none

/-- `while (i--)` -/
def callDown (s : Atexit) : Nat → List DestructorCall
  | 0 => []
  | i + 1 => (call (s.funcs (BitVec.ofNat 32 i))).toList ++ callDown s i

/-- `for (; i >= 0; i++)`, which an unsigned `i` leaves only at a match. -/
def findUp (fuel : Nat) (f : Word) (s : Atexit) : Option Word :=
  WhileLoop.run (fun i ↦ (s.funcs i).destructor ≠ f) (· + 1#32) fuel s.funcCount

/-- The calls that are made, and the table after them. -/
def cxaFinalize (fuel : Nat) (f : Word) (s : Atexit) : Option (List DestructorCall × Atexit) :=
  if f = 0#32 then some (s.callDown s.funcCount.toNat, s)
  else (s.findUp fuel f).map fun i ↦
    ([((s.funcs i).destructor, (s.funcs i).paraPtr)],
      { s with funcs := Function.update s.funcs i { s.funcs i with destructor := 0#32 } })

end Atexit

inductive AtexitOp where
  | atexit (f para dso : Word)
  -- `__cxa_finalize(NULL)`
  | finalize
  deriving DecidableEq, Repr

namespace AtexitOp

def isAtexit : AtexitOp → Bool
  | atexit _ _ _ => true
  | finalize => false

/-- The pair that is registered; a null pointer is no function. -/
def registered : AtexitOp → Option DestructorCall
  | atexit f para _ => if f ≠ 0#32 then some (f, para) else none
  | finalize => none

/-- The calls of each `__cxa_finalize(NULL)` of a run. -/
def calls (s : Atexit) : List AtexitOp → List (List DestructorCall)
  | [] => []
  | atexit f para dso :: ops => calls (s.cxaAtexit f para dso).2 ops
  | finalize :: ops =>
    match s.cxaFinalize 0 0#32 with
    | some (called, s) => called :: calls s ops
    | none => []

/-- What the calls are for: each `__cxa_finalize(NULL)` calls what has been registered and not yet
been called, the last first. -/
def due (pending : List DestructorCall) : List AtexitOp → List (List DestructorCall)
  | [] => []
  | finalize :: ops => pending.reverse :: due [] ops
  | op :: ops => due (pending ++ op.registered.toList) ops

end AtexitOp

/-- Each registered pair is called at most once, and each `__cxa_finalize(NULL)` calls what is
due. -/
structure CallsOnce (ops : List AtexitOp) : Prop where
  once : ∀ call, ((AtexitOp.calls .start ops).flatten).count call ≤
    (ops.filterMap AtexitOp.registered).count call
  due : AtexitOp.calls .start ops = AtexitOp.due [] ops

/-! ## The table -/

namespace Atexit

variable {s : Atexit} {entries : List AtexitFuncEntry}

/-- The table has been filled with `entries`. -/
structure Holds (s : Atexit) (entries : List AtexitFuncEntry) : Prop where
  funcCount : s.funcCount = BitVec.ofNat 32 entries.length
  funcs : ∀ i (hi : i < entries.length), s.funcs (BitVec.ofNat 32 i) = entries[i]

theorem holds_start : start.Holds [] := by
  constructor
  · rfl
  · intro i hi
    simp at hi

theorem ofNat_ne_ofNat {i j : Nat} (hi : i < 2 ^ 32) (hj : j < 2 ^ 32) (h : i ≠ j) :
    BitVec.ofNat 32 i ≠ BitVec.ofNat 32 j := by
  intro heq
  have hnat := congrArg BitVec.toNat heq
  rw [BitVec.toNat_ofNat, BitVec.toNat_ofNat, Nat.mod_eq_of_lt hi, Nat.mod_eq_of_lt hj] at hnat
  exact h hnat

theorem Holds.cxaAtexit (h : s.Holds entries) (hroom : entries.length < atexitMaxFuncs)
    (f para dso : Word) :
    (s.cxaAtexit f para dso).1 = 0#32 ∧
      (s.cxaAtexit f para dso).2.Holds (entries ++ [⟨f, para, dso⟩]) := by
  have hsmall : entries.length < 128 := hroom
  have hguard : ¬ s.funcCount > BitVec.ofNat 32 atexitMaxFuncs := by
    have hmax : (BitVec.ofNat 32 atexitMaxFuncs).toNat = 128 := rfl
    rw [h.funcCount, gt_iff_lt, BitVec.lt_def, hmax, BitVec.toNat_ofNat,
      Nat.mod_eq_of_lt (by omega)]
    omega
  rw [Atexit.cxaAtexit, if_neg hguard]
  refine ⟨rfl, ?_, ?_⟩
  · show s.funcCount + 1#32 = _
    rw [h.funcCount, List.length_append, List.length_singleton, BitVec.ofNat_add]
  · intro i hi
    show Function.update s.funcs s.funcCount _ _ = _
    rw [List.length_append, List.length_singleton] at hi
    rcases Nat.lt_or_eq_of_le (Nat.le_of_lt_succ hi) with hlt | rfl
    · rw [Function.update_of_ne, h.funcs i hlt, List.getElem_append_left hlt]
      rw [h.funcCount]
      exact ofNat_ne_ofNat (by omega) (by omega) (Nat.ne_of_lt hlt)
    · rw [h.funcCount, Function.update_self]
      simp

/-- **The last entry is called first.** -/
theorem Holds.callDown (h : s.Holds entries) {n : Nat} (hn : n ≤ entries.length) :
    s.callDown n = ((entries.take n).filterMap call).reverse := by
  induction n with
  | zero => rfl
  | succ i ih =>
    have hi : i < entries.length := hn
    rw [Atexit.callDown, ih (Nat.le_of_lt hi), h.funcs i hi, List.take_add_one,
      List.getElem?_eq_getElem hi, List.filterMap_append, List.reverse_append]
    congr 1
    cases hcall : call entries[i] <;> simp [hcall]

theorem Holds.cxaFinalize (h : s.Holds entries) (hroom : entries.length ≤ atexitMaxFuncs)
    (fuel : Nat) :
    s.cxaFinalize fuel 0#32 = some ((entries.filterMap call).reverse, s) := by
  have hsmall : entries.length ≤ 128 := hroom
  have hcount : s.funcCount.toNat = entries.length := by
    rw [h.funcCount, BitVec.toNat_ofNat, Nat.mod_eq_of_lt (by omega)]
  rw [Atexit.cxaFinalize, if_pos rfl, hcount, h.callDown (Nat.le_refl _), List.take_length]

end Atexit

/-! ## Runs -/

namespace AtexitOp

variable {ops : List AtexitOp} {done pending : List DestructorCall}

/-- The calls of a run, when `done` are those registered before. -/
def allCalls (done : List DestructorCall) : List AtexitOp → List (List DestructorCall)
  | [] => []
  | finalize :: ops => done.reverse :: allCalls done ops
  | op :: ops => allCalls (done ++ op.registered.toList) ops

/-- The code calls everything that has been registered. -/
theorem calls_eq {s : Atexit} {entries : List AtexitFuncEntry} (h : s.Holds entries)
    (hroom : entries.length + (ops.filter isAtexit).length ≤ atexitMaxFuncs) :
    calls s ops = allCalls (entries.filterMap Atexit.call) ops := by
  induction ops generalizing s entries with
  | nil => rfl
  | cons op ops ih =>
    cases op with
    | atexit f para dso =>
      rw [List.filter_cons_of_pos rfl, List.length_cons] at hroom
      have hnext := (h.cxaAtexit (by omega) f para dso).2
      have hpair : (entries ++ [(⟨f, para, dso⟩ : AtexitFuncEntry)]).filterMap Atexit.call =
          entries.filterMap Atexit.call ++ (atexit f para dso).registered.toList := by
        rw [List.filterMap_append]
        congr 1
      rw [calls, ih hnext (by rw [List.length_append, List.length_singleton]; omega), hpair]
      rfl
    | finalize =>
      rw [List.filter_cons_of_neg (by decide)] at hroom
      have hfinalize := h.cxaFinalize (by omega) 0
      unfold calls
      rw [hfinalize]
      dsimp only
      rw [ih h hroom]
      rfl

/-- Nothing is `done` at a `__cxa_finalize(NULL)`, and nothing is pending at one after which there is
another. -/
def Settled (done pending : List DestructorCall) (ops : List AtexitOp) : Prop :=
  ∀ pre post, ops = pre ++ finalize :: post → done = [] ∧
    (finalize ∈ post → pending ++ pre.filterMap registered = [])

theorem settled_cons_atexit (f para dso : Word) :
    Settled done pending (atexit f para dso :: ops) ↔
      Settled done (pending ++ (atexit f para dso).registered.toList) ops := by
  have hpair : ∀ pre, pending ++ (atexit f para dso :: pre).filterMap registered =
      pending ++ (atexit f para dso).registered.toList ++ pre.filterMap registered := by
    intro pre
    cases hpair : (atexit f para dso).registered with
    | none => simp [hpair]
    | some c => simp [hpair]
  constructor
  · intro h pre post hsplit
    rw [← hpair]
    apply h (atexit f para dso :: pre) post
    rw [hsplit, List.cons_append]
  · intro h pre post hsplit
    cases pre with
    | nil => exact absurd (List.cons.inj hsplit).1 (by simp)
    | cons op pre =>
      obtain ⟨rfl, hrest⟩ := List.cons.inj hsplit
      rw [hpair]
      exact h pre post hrest

theorem settled_cons_finalize :
    Settled done pending (finalize :: ops) ↔ done = [] ∧ Settled (done ++ pending) [] ops := by
  constructor
  · intro h
    obtain ⟨hdone, hnone⟩ := h [] ops rfl
    refine ⟨hdone, fun pre post hsplit ↦ ?_⟩
    have hpending : pending = [] := by
      rw [hsplit] at hnone
      simpa using hnone (by simp)
    refine ⟨by rw [hdone, hpending]; rfl, fun hmem ↦ ?_⟩
    have := (h (finalize :: pre) post (by rw [hsplit]; rfl)).2 hmem
    rw [hpending] at this
    exact this
  · rintro ⟨hdone, h⟩ pre post hsplit
    refine ⟨hdone, fun hmem ↦ ?_⟩
    cases pre with
    | nil =>
      obtain ⟨-, rfl⟩ := List.cons.inj hsplit
      obtain ⟨pre, post, rfl⟩ := List.append_of_mem hmem
      rw [(List.append_eq_nil_iff.mp (h pre post rfl).1).2]
      rfl
    | cons op pre =>
      obtain ⟨rfl, hrest⟩ := List.cons.inj hsplit
      obtain ⟨hempty, hlater⟩ := h pre post hrest
      rw [(List.append_eq_nil_iff.mp hempty).2]
      exact hlater hmem

theorem allCalls_eq_due_iff : allCalls (done ++ pending) ops = due pending ops ↔
    Settled done pending ops := by
  induction ops generalizing done pending with
  | nil =>
    refine iff_of_true rfl fun pre post hsplit ↦ ?_
    simp at hsplit
  | cons op ops ih =>
    cases op with
    | atexit f para dso =>
      rw [settled_cons_atexit, ← ih, ← List.append_assoc]
      rfl
    | finalize =>
      have hrest := @ih (done ++ pending) []
      rw [List.append_nil] at hrest
      rw [settled_cons_finalize, ← hrest]
      show (done ++ pending).reverse :: allCalls (done ++ pending) ops =
        pending.reverse :: due [] ops ↔ _
      rw [List.cons_eq_cons, List.reverse_inj]
      simp

theorem count_due_le (pending : List DestructorCall) (ops : List AtexitOp)
    (call : DestructorCall) :
    (due pending ops).flatten.count call ≤
      pending.count call + (ops.filterMap registered).count call := by
  induction ops generalizing pending with
  | nil => simp [due]
  | cons op ops ih =>
    cases op with
    | atexit f para dso =>
      show (due (pending ++ (atexit f para dso).registered.toList) ops).flatten.count call ≤ _
      refine (ih (pending ++ (atexit f para dso).registered.toList)).trans ?_
      rw [List.count_append]
      cases hpair : (atexit f para dso).registered with
      | none => simp [hpair]
      | some c =>
        rw [List.filterMap_cons_some hpair]
        simp only [Option.toList_some, List.count_cons, List.count_nil]
        omega
    | finalize =>
      have hrest := ih []
      rw [List.count_nil, Nat.zero_add] at hrest
      show (pending.reverse :: due [] ops).flatten.count call ≤ _
      rw [List.flatten_cons, List.count_append, List.count_reverse]
      exact Nat.add_le_add_left hrest _

end AtexitOp

/-- **Each destructor runs once exactly when nothing is finalised again**: at a
`__cxa_finalize(NULL)` after which there is another one, nothing is registered. -/
theorem callsOnce_iff (ops : List AtexitOp)
    (hroom : (ops.filter AtexitOp.isAtexit).length ≤ atexitMaxFuncs) :
    CallsOnce ops ↔ ∀ pre post, ops = pre ++ .finalize :: post → .finalize ∈ post →
      pre.filterMap AtexitOp.registered = [] := by
  have hcalls : AtexitOp.calls .start ops = AtexitOp.allCalls ([] ++ []) ops :=
    AtexitOp.calls_eq Atexit.holds_start (by simpa using hroom)
  have hdue : AtexitOp.calls .start ops = AtexitOp.due [] ops ↔ AtexitOp.Settled [] [] ops := by
    rw [hcalls, AtexitOp.allCalls_eq_due_iff]
  constructor
  · intro h pre post hsplit
    exact (hdue.mp h.due pre post hsplit).2
  · intro h
    have heq : AtexitOp.calls .start ops = AtexitOp.due [] ops :=
      hdue.mpr fun pre post hsplit ↦ ⟨rfl, h pre post hsplit⟩
    refine ⟨fun call ↦ ?_, heq⟩
    rw [heq]
    simpa using AtexitOp.count_due_le [] ops call

/-- Two destructors and one `__cxa_finalize(NULL)`. -/
theorem callsOnce_two :
    CallsOnce [.atexit 0x1000#32 1#32 0#32, .atexit 0x2000#32 2#32 0#32, .finalize] := by
  apply (callsOnce_iff _ (by decide)).mpr
  intro pre post hsplit hmem
  -- there is only one
  have hcount := congrArg (List.count AtexitOp.finalize) hsplit
  have hpost := List.count_pos_iff.mpr hmem
  rw [List.count_append, List.count_cons_self] at hcount
  have hone : List.count AtexitOp.finalize
      [.atexit 0x1000#32 1#32 0#32, .atexit 0x2000#32 2#32 0#32, .finalize] = 1 := by decide
  omega

/-- The second `__cxa_finalize(NULL)` calls the destructor again. -/
theorem not_forall_callsOnce :
    ¬ ∀ ops : List AtexitOp, (ops.filter AtexitOp.isAtexit).length ≤ atexitMaxFuncs →
      CallsOnce ops := by
  intro hall
  have honce := (hall [.atexit 0x1000#32 1#32 0#32, .finalize, .finalize] (by decide)).once
    (0x1000#32, 1#32)
  exact absurd honce (by decide)

end AphroditeOs
