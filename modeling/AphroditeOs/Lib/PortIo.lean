import Mathlib

/-!
# Programs that drive a device through ports

A program is a tree of writes and reads; a device says what they do.  Two devices that agree on what
a program uses of them cannot be told apart by it.
-/

namespace PortIo

universe u v

inductive Program (α : Type u) where
  | done (a : α)
  | out (port : BitVec 16) (value : BitVec 8) (rest : Program α)
  | inp (port : BitVec 16) (rest : BitVec 8 → Program α)

/-- A device whose reads do not change it. -/
structure Device (δ : Type v) where
  out : BitVec 16 → BitVec 8 → δ → δ
  inp : BitVec 16 → δ → BitVec 8

namespace Program

variable {α β : Type u} {δ δ' : Type v}

def bind : Program α → (α → Program β) → Program β
  | done a, f => f a
  | out port value rest, f => out port value (rest.bind f)
  | inp port rest, f => inp port fun value ↦ (rest value).bind f

def run (D : Device δ) : Program α → δ → α × δ
  | done a, d => (a, d)
  | out port value rest, d => rest.run D (D.out port value d)
  | inp port rest, d => (rest (D.inp port d)).run D d

/-- The writes of the program are in `W` and its reads in `P`, whatever it reads. -/
def Uses (W : BitVec 16 → BitVec 8 → Prop) (P : BitVec 16 → Prop) : Program α → Prop
  | done _ => True
  | out port value rest => W port value ∧ rest.Uses W P
  | inp port rest => P port ∧ ∀ value, (rest value).Uses W P

@[simp] theorem run_done (D : Device δ) (a : α) (d : δ) : (done a).run D d = (a, d) := rfl

@[simp] theorem run_out (D : Device δ) (port : BitVec 16) (value : BitVec 8) (rest : Program α)
    (d : δ) : (out port value rest).run D d = rest.run D (D.out port value d) :=
  rfl

@[simp] theorem run_inp (D : Device δ) (port : BitVec 16) (rest : BitVec 8 → Program α) (d : δ) :
    (inp port rest).run D d = (rest (D.inp port d)).run D d :=
  rfl

theorem run_bind (D : Device δ) (p : Program α) (f : α → Program β) (d : δ) :
    (p.bind f).run D d = (f (p.run D d).1).run D (p.run D d).2 := by
  induction p generalizing d with
  | done a => rfl
  | out port value rest ih => exact ih _
  | inp port rest ih => exact ih _ d

section

variable {W : BitVec 16 → BitVec 8 → Prop} {P : BitVec 16 → Prop}

theorem Uses.bind {p : Program α} {f : α → Program β} (hp : p.Uses W P)
    (hf : ∀ a, (f a).Uses W P) : (p.bind f).Uses W P := by
  induction p with
  | done a => exact hf a
  | out port value rest ih => exact ⟨hp.1, ih hp.2⟩
  | inp port rest ih => exact ⟨hp.1, fun value ↦ ih value (hp.2 value)⟩

/-- A relation that the writes keep, and that makes the reads equal, is kept by the program. -/
theorem run_sim {D : Device δ} {D' : Device δ'} {R : δ → δ' → Prop}
    (hout : ∀ port value, W port value → ∀ d d', R d d' →
      R (D.out port value d) (D'.out port value d'))
    (hinp : ∀ port, P port → ∀ d d', R d d' → D.inp port d = D'.inp port d')
    {p : Program α} (hp : p.Uses W P) {d : δ} {d' : δ'} (hd : R d d') :
    (p.run D d).1 = (p.run D' d').1 ∧ R (p.run D d).2 (p.run D' d').2 := by
  induction p generalizing d d' with
  | done a => exact ⟨rfl, hd⟩
  | out port value rest ih => exact ih hp.2 (hout port value hp.1 d d' hd)
  | inp port rest ih =>
    rw [run_inp, run_inp, hinp port hp.1 d d' hd]
    exact ih _ (hp.2 _) hd

end

end Program

end PortIo
