import AphroditeOs.Lib.Transition

/-!
# Data behind a lock

Processes that access shared data only while they hold a lock.  If the lock keeps an exclusive hold
apart from all others, any interleaving leaves the data and the processes as if the critical
sections had been executed one after another, in the order in which they were entered.
-/

namespace Critical

open Transition

variable {ι σ δ ρ : Type*}

inductive Mode where
  | free
  | shared
  | exclusive
  deriving DecidableEq, Repr

/-- What a process does to the data and to its own registers at once. -/
inductive Access (δ ρ : Type*) where
  | read (f : δ → ρ → ρ)
  | write (f : δ → ρ → δ × ρ)

def Access.allowed (m : Mode) : Access δ ρ → Prop
  | read _ => m ≠ .free
  | write _ => m = .exclusive

/-- What a process has accessed between two times at which it held nothing. -/
structure Section (ι δ ρ : Type*) where
  proc : ι
  accesses : List (Access δ ρ)

/-! ## Sections one after another -/

section

variable [DecidableEq ι]

/-- The data and the registers of all processes. -/
def act (i : ι) (a : Access δ ρ) (x : δ × (ι → ρ)) : δ × (ι → ρ) :=
  match a with
  | .read f => (x.1, Function.update x.2 i (f x.1 (x.2 i)))
  | .write f => ((f x.1 (x.2 i)).1, Function.update x.2 i (f x.1 (x.2 i)).2)

def Section.perform (s : Section ι δ ρ) (x : δ × (ι → ρ)) : δ × (ι → ρ) :=
  s.accesses.foldl (fun x a ↦ act s.proc a x) x

/-- The sections, latest first, each executed as a whole. -/
def serial (x : δ × (ι → ρ)) : List (Section ι δ ρ) → δ × (ι → ρ)
  | [] => x
  | s :: older => s.perform (serial x older)

/-- The access is in the latest section of its process. -/
def extend (i : ι) (a : Access δ ρ) : List (Section ι δ ρ) → List (Section ι δ ρ)
  | [] => []
  | s :: older =>
    if s.proc = i then { s with accesses := s.accesses ++ [a] } :: older
    else s :: extend i a older

def Section.ReadOnly (s : Section ι δ ρ) : Prop := ∀ a ∈ s.accesses, ∃ f, a = .read f

/-- Since the latest section of `i` was entered, the other processes have only read. -/
def Current (i : ι) : List (Section ι δ ρ) → Prop
  | [] => False
  | s :: older => s.proc = i ∨ s.ReadOnly ∧ Current i older

/-- The latest section of all is one of `i`. -/
def Latest (i : ι) : List (Section ι δ ρ) → Prop
  | [] => False
  | s :: _ => s.proc = i

variable {i j : ι} {a : Access δ ρ} {x : δ × (ι → ρ)} {sections : List (Section ι δ ρ)}

omit [DecidableEq ι] in
theorem Latest.current (h : Latest i sections) : Current i sections := by
  cases sections with
  | nil => exact h.elim
  | cons s older => exact Or.inl h

theorem perform_concat (s : Section ι δ ρ) (a : Access δ ρ) (x : δ × (ι → ρ)) :
    Section.perform { s with accesses := s.accesses ++ [a] } x = act s.proc a (s.perform x) := by
  simp [Section.perform]

theorem act_comm (hij : i ≠ j) (f g : δ → ρ → ρ) (x : δ × (ι → ρ)) :
    act i (.read f) (act j (.read g) x) = act j (.read g) (act i (.read f) x) := by
  simp only [act]
  rw [Function.update_of_ne hij, Function.update_of_ne hij.symm, Function.update_comm hij]

theorem perform_act {s : Section ι δ ρ} (hs : s.ReadOnly) (hi : s.proc ≠ i) (f : δ → ρ → ρ)
    (x : δ × (ι → ρ)) : s.perform (act i (.read f) x) = act i (.read f) (s.perform x) := by
  obtain ⟨proc, accesses⟩ := s
  unfold Section.perform
  induction accesses generalizing x with
  | nil => rfl
  | cons a accesses ih =>
    obtain ⟨g, rfl⟩ := hs a List.mem_cons_self
    rw [List.foldl_cons, List.foldl_cons, act_comm hi]
    exact ih _ (fun b hb ↦ hs b (List.mem_cons_of_mem _ hb)) hi

/-- A read goes to the end of the sections as well as into its own. -/
theorem serial_extend_read (h : Current i sections) (f : δ → ρ → ρ) :
    serial x (extend i (.read f) sections) = act i (.read f) (serial x sections) := by
  induction sections with
  | nil => exact h.elim
  | cons s older ih =>
    by_cases hi : s.proc = i
    · rw [extend, if_pos hi, ← hi]
      exact perform_concat s _ _
    · obtain ⟨hread, hcurrent⟩ := h.resolve_left hi
      rw [extend, if_neg hi, serial, ih hcurrent, perform_act hread hi]
      rfl

theorem serial_extend_latest (h : Latest i sections) (a : Access δ ρ) :
    serial x (extend i a sections) = act i a (serial x sections) := by
  cases sections with
  | nil => exact h.elim
  | cons s older =>
    have hproc : s.proc = i := h
    rw [extend, if_pos hproc, ← hproc]
    exact perform_concat s _ _

theorem latest_extend (h : Latest i sections) (j : ι) (a : Access δ ρ) :
    Latest i (extend j a sections) := by
  cases sections with
  | nil => exact h.elim
  | cons s older =>
    unfold extend
    split_ifs
    · exact h
    · exact h

theorem current_extend_read (h : Current i sections) (j : ι) (f : δ → ρ → ρ) :
    Current i (extend j (.read f) sections) := by
  induction sections with
  | nil => exact h.elim
  | cons s older ih =>
    unfold extend
    split_ifs with hj
    · apply h.imp id
      intro ⟨hread, hcurrent⟩
      refine ⟨fun b hb ↦ ?_, hcurrent⟩
      rcases List.mem_append.mp hb with hb | hb
      · exact hread b hb
      · exact ⟨f, List.mem_singleton.mp hb⟩
    · exact h.imp id fun ⟨hread, hcurrent⟩ ↦ ⟨hread, ih hcurrent⟩

end

/-! ## Locks -/

structure Lock (ι σ : Type*) where
  Init : σ → Prop
  Step : ι → σ → σ → Prop
  mode : σ → ι → Mode

namespace Lock

def system (L : Lock ι σ) : System σ := ⟨L.Init, fun s t ↦ ∃ i, L.Step i s t⟩

/-- A step changes no hold but that of its process, which it takes or gives up; an exclusive hold is
the only one. -/
structure Sound (L : Lock ι σ) : Prop where
  init : ∀ s i, L.Init s → L.mode s i = .free
  others : ∀ s t i j, Reachable L.system s → L.Step i s t → j ≠ i → L.mode t j = L.mode s j
  turn : ∀ s t i, Reachable L.system s → L.Step i s t →
    L.mode t i = L.mode s i ∨ L.mode s i = .free ∨ L.mode t i = .free
  exclusive : ∀ s i j, Reachable L.system s → L.mode s i = .exclusive → j ≠ i →
    L.mode s j = .free

/-- Processes that take turns on one shared value, with the hold that a process has. -/
def ofInterleave {ν κ : Type*} [DecidableEq ι] (value : ν) (proc : κ)
    (step : ν → κ → ν → κ → Prop) (mode : κ → Mode) : Lock ι (Shared ι ν κ) where
  Init s := s = ⟨value, fun _ ↦ proc⟩
  Step i s t := ∃ v c, step s.value (s.proc i) v c ∧ t = ⟨v, Function.update s.proc i c⟩
  mode s i := mode (s.proc i)

theorem sound_ofInterleave {ν κ : Type*} [DecidableEq ι] {value : ν} {proc : κ}
    {step : ν → κ → ν → κ → Prop} {mode : κ → Mode} {I : Shared ι ν κ → Prop}
    (hI : Invariant (interleave value proc step) I) (hinit : mode proc = .free)
    (hexclusive : ∀ s i j, I s → mode (s.proc i) = .exclusive → j ≠ i → mode (s.proc j) = .free)
    (hturn : ∀ s i v c, I s → I ⟨v, Function.update s.proc i c⟩ → step s.value (s.proc i) v c →
      mode c = mode (s.proc i) ∨ mode (s.proc i) = .free ∨ mode c = .free) :
    (ofInterleave value proc step mode : Lock ι (Shared ι ν κ)).Sound := by
  have hreach : ∀ s, Reachable (ofInterleave value proc step mode).system s → I s :=
    fun s hs ↦ hI.of_reachable hs
  constructor
  · intro s i hs
    obtain rfl : s = ⟨value, fun _ ↦ proc⟩ := hs
    exact hinit
  · intro s t i j hs ⟨v, c, hstep, ht⟩ hj
    rw [ht]
    exact congrArg mode (Function.update_of_ne hj _ _)
  · intro s t i hs ⟨v, c, hstep, ht⟩
    subst ht
    have hmode : mode (Function.update s.proc i c i) = mode c :=
      congrArg mode (Function.update_self _ _ _)
    show mode (Function.update s.proc i c i) = mode (s.proc i) ∨ mode (s.proc i) = .free ∨
      mode (Function.update s.proc i c i) = .free
    rw [hmode]
    exact hturn s i v c (hreach s hs) (hI.step _ _ (hreach s hs) ⟨i, v, c, hstep, rfl⟩) hstep
  · exact fun s i j hs ↦ hexclusive s i j (hreach s hs)

end Lock

/-! ## The system -/

/-- `sections` records, latest first, what has been accessed under the holds taken so far. -/
structure State (ι σ δ ρ : Type*) where
  lock : σ
  data : δ
  regs : ι → ρ
  sections : List (Section ι δ ρ)

section

variable [DecidableEq ι]

/-- A process that takes a hold enters a section. -/
def Lock.enter (L : Lock ι σ) (i : ι) (l : σ) (s : State ι σ δ ρ) : State ι σ δ ρ :=
  { s with
    lock := l
    sections := if L.mode s.lock i = .free ∧ L.mode l i ≠ .free then ⟨i, []⟩ :: s.sections
      else s.sections }

def State.access (i : ι) (a : Access δ ρ) (s : State ι σ δ ρ) : State ι σ δ ρ :=
  { s with
    data := (act i a (s.data, s.regs)).1
    regs := (act i a (s.data, s.regs)).2
    sections := extend i a s.sections }

/-- Any interleaving of steps on the lock and accesses by processes that hold it. -/
def guarded (L : Lock ι σ) (x : δ × (ι → ρ)) : System (State ι σ δ ρ) where
  Init s := L.Init s.lock ∧ (s.data, s.regs) = x ∧ s.sections = []
  Step s t :=
    (∃ i l, L.Step i s.lock l ∧ t = L.enter i l s) ∨
      ∃ i a, a.allowed (L.mode s.lock i) ∧ t = s.access i a

structure Serialized (L : Lock ι σ) (x : δ × (ι → ρ)) (s : State ι σ δ ρ) : Prop where
  lock : Reachable L.system s.lock
  serial : (s.data, s.regs) = serial x s.sections
  shared : ∀ i, L.mode s.lock i = .shared → Current i s.sections
  exclusive : ∀ i, L.mode s.lock i = .exclusive → Latest i s.sections

variable {L : Lock ι σ} {x : δ × (ι → ρ)} {s : State ι σ δ ρ}

theorem Serialized.current (hs : Serialized L x s) {i : ι} (hi : L.mode s.lock i ≠ .free) :
    Current i s.sections := by
  cases hmode : L.mode s.lock i with
  | free => exact absurd hmode hi
  | shared => exact hs.shared i hmode
  | exclusive => exact (hs.exclusive i hmode).current

theorem Serialized.enter (hL : L.Sound) (hs : Serialized L x s) {i : ι} {l : σ}
    (hstep : L.Step i s.lock l) : Serialized L x (L.enter i l s) := by
  have hreach : Reachable L.system l := .step hs.lock ⟨i, hstep⟩
  have hothers : ∀ j, j ≠ i → L.mode l j = L.mode s.lock j :=
    fun j hj ↦ hL.others _ _ i j hs.lock hstep hj
  by_cases hnew : L.mode s.lock i = .free ∧ L.mode l i ≠ .free
  · have henter : L.enter i l s = { s with lock := l, sections := ⟨i, []⟩ :: s.sections } := by
      rw [Lock.enter, if_pos hnew]
    rw [henter]
    refine ⟨hreach, hs.serial, fun j hj ↦ ?_, fun j hj ↦ ?_⟩
    · by_cases hij : j = i
      · exact Or.inl hij.symm
      · rw [hothers j hij] at hj
        exact Or.inr ⟨fun b hb ↦ absurd hb List.not_mem_nil, hs.shared j hj⟩
    · -- another process with an exclusive hold would have kept `i` out
      by_contra hlatest
      have hij : i ≠ j := fun h ↦ hlatest h
      exact hnew.2 (hL.exclusive l j i hreach hj hij)
  · have henter : L.enter i l s = { s with lock := l } := by
      rw [Lock.enter, if_neg hnew]
    have hold : ∀ j, L.mode l j ≠ .free → L.mode l j = L.mode s.lock j := by
      intro j hj
      by_cases hij : j = i
      · subst hij
        rcases hL.turn _ _ j hs.lock hstep with h | h | h
        · exact h
        · exact absurd ⟨h, hj⟩ hnew
        · exact absurd h hj
      · exact hothers j hij
    rw [henter]
    refine ⟨hreach, hs.serial, fun j hj ↦ ?_, fun j hj ↦ ?_⟩
    · rw [hold j (by simp [hj])] at hj
      exact hs.shared j hj
    · rw [hold j (by simp [hj])] at hj
      exact hs.exclusive j hj

theorem Serialized.access (hL : L.Sound) (hs : Serialized L x s) {i : ι} {a : Access δ ρ}
    (ha : a.allowed (L.mode s.lock i)) : Serialized L x (s.access i a) := by
  cases a with
  | read f =>
    constructor
    · exact hs.lock
    · show act i (.read f) (s.data, s.regs) = _
      rw [hs.serial]
      exact (serial_extend_read (hs.current ha) f).symm
    · exact fun j hj ↦ current_extend_read (hs.shared j hj) i f
    · exact fun j hj ↦ latest_extend (hs.exclusive j hj) i _
  | write f =>
    have hlatest := hs.exclusive i ha
    constructor
    · exact hs.lock
    · show act i (.write f) (s.data, s.regs) = _
      rw [hs.serial]
      exact (serial_extend_latest hlatest (.write f)).symm
    · intro j hj
      -- nobody holds the lock beside the writer
      by_cases hij : j = i
      · subst hij
        exact (latest_extend hlatest j _).current
      · have hfree := hL.exclusive _ i j hs.lock ha hij
        exact absurd (hfree.symm.trans hj) (by decide)
    · exact fun j hj ↦ latest_extend (hs.exclusive j hj) i _

/-- **Serializability.** -/
theorem serialized_of_reachable (hL : L.Sound) (hs : Reachable (guarded L x) s) :
    Serialized L x s := by
  have hinv : Invariant (guarded L x) (Serialized L x) := by
    constructor
    · intro s ⟨hlock, hdata, hsections⟩
      refine ⟨.init hlock, ?_, fun i hi ↦ ?_, fun i hi ↦ ?_⟩
      · rw [hsections]
        exact hdata
      · rw [hL.init _ i hlock] at hi
        contradiction
      · rw [hL.init _ i hlock] at hi
        contradiction
    · intro s t hs hstep
      rcases hstep with ⟨i, l, hl, rfl⟩ | ⟨i, a, ha, rfl⟩
      · exact hs.enter hL hl
      · exact hs.access hL ha
  exact hinv.of_reachable hs

end

end Critical
