import Mathlib

/-!
# Stacks of double words in memory

A stack that grows down in memory, one function on addresses, and its view as a list with the top
first.  Addresses are 32 bits wide and wrap; cells lie four bytes apart, so no two of fewer than
`2 ^ 30` cells meet.
-/

structure DwordStack where
  mem : BitVec 32 → BitVec 32
  esp : BitVec 32

namespace DwordStack

/-- The cell `k` double words above the top. -/
def slot (s : DwordStack) (k : Nat) : BitVec 32 := s.esp + BitVec.ofNat 32 (4 * k)

def push (v : BitVec 32) (s : DwordStack) : DwordStack :=
  { mem := Function.update s.mem (s.esp - 4#32) v, esp := s.esp - 4#32 }

def pop (s : DwordStack) : BitVec 32 × DwordStack := (s.mem s.esp, { s with esp := s.esp + 4#32 })

def load (s : DwordStack) (k : Nat) : BitVec 32 := s.mem (s.slot k)

def store (s : DwordStack) (k : Nat) (v : BitVec 32) : DwordStack :=
  { s with mem := Function.update s.mem (s.slot k) v }

/-- The cells from the top on hold `vs`. -/
def Holds (s : DwordStack) (vs : List (BitVec 32)) : Prop :=
  vs.length < 2 ^ 29 ∧ ∀ k (hk : k < vs.length), s.load k = vs[k]

theorem slot_zero (s : DwordStack) : s.slot 0 = s.esp := BitVec.add_zero s.esp

theorem slot_injective (s : DwordStack) {j k : Nat} (hj : j < 2 ^ 30) (hk : k < 2 ^ 30)
    (h : s.slot j = s.slot k) : j = k := by
  have hofs := (BitVec.add_right_inj s.esp).mp h
  have hnat := congrArg BitVec.toNat hofs
  rw [BitVec.toNat_ofNat, BitVec.toNat_ofNat, Nat.mod_eq_of_lt (by omega),
    Nat.mod_eq_of_lt (by omega)] at hnat
  omega

theorem slot_push (s : DwordStack) (v : BitVec 32) (k : Nat) : (s.push v).slot (k + 1) = s.slot k := by
  unfold slot push
  dsimp only
  rw [Nat.mul_add, BitVec.ofNat_add]
  bv_omega

theorem slot_pop (s : DwordStack) (k : Nat) : s.pop.2.slot k = s.slot (k + 1) := by
  unfold slot pop
  dsimp only
  rw [Nat.mul_add, BitVec.ofNat_add]
  bv_omega

@[simp] theorem mem_pop (s : DwordStack) : s.pop.2.mem = s.mem := rfl

@[simp] theorem esp_pop (s : DwordStack) : s.pop.2.esp = s.esp + 4#32 := rfl

@[simp] theorem top_pop (s : DwordStack) : s.pop.1 = s.load 0 := congrArg s.mem (slot_zero s).symm

@[simp] theorem load_pop (s : DwordStack) (k : Nat) : s.pop.2.load k = s.load (k + 1) :=
  congrArg s.mem (slot_pop s k)

section

variable {s : DwordStack} {v : BitVec 32} {vs : List (BitVec 32)}

theorem Holds.push (h : s.Holds vs) (v : BitVec 32) (hlen : vs.length + 1 < 2 ^ 29) :
    (s.push v).Holds (v :: vs) := by
  refine ⟨hlen, fun k hk ↦ ?_⟩
  cases k with
  | zero =>
    rw [load, slot_zero]
    exact Function.update_self _ _ _
  | succ k =>
    have hne : (s.push v).slot (k + 1) ≠ (s.push v).slot 0 := fun heq ↦ by
      have := slot_injective _ (by rw [List.length_cons] at hk; omega) (by decide) heq
      omega
    rw [slot_zero, slot_push] at hne
    rw [load, slot_push, List.getElem_cons_succ, ← h.2 k (by simpa using hk)]
    exact Function.update_of_ne hne _ _

/-- Pushes one after another, the last one on top. -/
def pushAll (vs : List (BitVec 32)) (s : DwordStack) : DwordStack := vs.foldl (fun s v ↦ s.push v) s

theorem Holds.pushAll {s : DwordStack} {vs : List (BitVec 32)} (h : s.Holds vs)
    (us : List (BitVec 32)) (hlen : vs.length + us.length < 2 ^ 29) :
    (s.pushAll us).Holds (us.reverse ++ vs) := by
  induction us generalizing s vs with
  | nil => exact h
  | cons u us ih =>
    rw [List.length_cons] at hlen
    rw [List.reverse_cons, List.append_assoc]
    exact ih (h.push u (by omega)) (by rw [List.length_append, List.length_singleton]; omega)

theorem esp_pushAll (us : List (BitVec 32)) (s : DwordStack) :
    (s.pushAll us).esp = s.esp - BitVec.ofNat 32 (4 * us.length) := by
  induction us generalizing s with
  | nil => exact (BitVec.sub_zero s.esp).symm
  | cons u us ih =>
    have hpush : (s.push u).esp = s.esp - 4#32 := rfl
    rw [List.length_cons, Nat.mul_add, BitVec.ofNat_add]
    refine (ih (s.push u)).trans ?_
    rw [hpush]
    bv_omega

theorem Holds.pop (h : s.Holds (v :: vs)) : s.pop.1 = v ∧ s.pop.2.Holds vs := by
  constructor
  · have htop := h.2 0 (by simp)
    rwa [load, slot_zero] at htop
  · have hlen := h.1
    rw [List.length_cons] at hlen
    refine ⟨by omega, fun k hk ↦ ?_⟩
    rw [load, slot_pop]
    exact h.2 (k + 1) (by simpa using hk)

theorem Holds.load (h : s.Holds vs) {k : Nat} (hk : k < vs.length) : s.load k = vs[k] := h.2 k hk

theorem Holds.store (h : s.Holds vs) (k : Nat) (v : BitVec 32) (hk : k < vs.length) :
    (s.store k v).Holds (vs.set k v) := by
  have hlen := h.1
  refine ⟨by rwa [List.length_set], fun j hj ↦ ?_⟩
  rw [List.length_set] at hj
  change Function.update s.mem (s.slot k) v (s.slot j) = _
  by_cases hjk : k = j
  · subst hjk
    rw [Function.update_self, List.getElem_set_self]
  · rw [Function.update_of_ne fun heq ↦ hjk (slot_injective s (by omega) (by omega) heq).symm,
      List.getElem_set_ne hjk]
    exact h.2 j hj

theorem Holds.congr {t : DwordStack} (h : s.Holds vs) (hesp : t.esp = s.esp)
    (hmem : ∀ k < vs.length, t.mem (s.slot k) = s.mem (s.slot k)) : t.Holds vs := by
  refine ⟨h.1, fun k hk ↦ ?_⟩
  rw [← h.2 k hk, DwordStack.load, DwordStack.load, slot, hesp]
  exact hmem k hk

end

end DwordStack
