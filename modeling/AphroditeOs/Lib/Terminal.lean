import Mathlib

/-!
# Terminals

A grid of cells with a position that goes on cell by cell and row by row, and from the last row to
the first one.
-/

structure Terminal (rows cols : Nat) (α : Type*) where
  -- `none` where nothing has been written
  cells : Fin rows → Fin cols → Option α
  row : Fin rows
  col : Fin cols

namespace Terminal

variable {rows cols : Nat} {α : Type*}

def set (c : α) (t : Terminal rows cols α) : Terminal rows cols α :=
  { t with cells := fun r k ↦ if r = t.row ∧ k = t.col then some c else t.cells r k }

theorem cells_set (t : Terminal rows cols α) (c : α) (r : Fin rows) (k : Fin cols) :
    (t.set c).cells r k = if r = t.row ∧ k = t.col then some c else t.cells r k := rfl

variable [NeZero rows] [NeZero cols]

def blank : Terminal rows cols α := ⟨fun _ _ ↦ none, 0, 0⟩

def newline (t : Terminal rows cols α) : Terminal rows cols α := { t with row := t.row + 1, col := 0 }

def advance (t : Terminal rows cols α) : Terminal rows cols α :=
  if t.col.val + 1 < cols then { t with col := t.col + 1 } else t.newline

/-- A character is written, or begins a new row. -/
def put (isNewline : α → Prop) [DecidablePred isNewline] (c : α) (t : Terminal rows cols α) :
    Terminal rows cols α :=
  if isNewline c then t.newline else (t.set c).advance

def puts (isNewline : α → Prop) [DecidablePred isNewline] (cs : List α)
    (t : Terminal rows cols α) : Terminal rows cols α :=
  cs.foldl (fun t c ↦ t.put isNewline c) t

variable (t : Terminal rows cols α)

@[simp] theorem cells_advance : t.advance.cells = t.cells := by
  unfold advance
  split <;> rfl

theorem val_row_newline : t.newline.row.val = if t.row.val + 1 < rows then t.row.val + 1 else 0 := by
  show (t.row + 1).val = _
  have hrow := t.row.isLt
  rw [Fin.val_add, Fin.val_one', Nat.add_mod_mod]
  split
  · exact Nat.mod_eq_of_lt ‹_›
  · rw [show t.row.val + 1 = rows by omega, Nat.mod_self]

omit [NeZero rows] in
theorem val_col_add_one (h : t.col.val + 1 < cols) : (t.col + 1).val = t.col.val + 1 := by
  rw [Fin.val_add, Fin.val_one', Nat.add_mod_mod, Nat.mod_eq_of_lt h]

/-! ## Lines -/

section

variable {isNewline : α → Prop} [DecidablePred isNewline] {t : Terminal rows cols α}

theorem puts_append (cs ds : List α) :
    t.puts isNewline (cs ++ ds) = (t.puts isNewline cs).puts isNewline ds := List.foldl_append

/-- A character that does not end its row. -/
theorem put_text {c : α} (hc : ¬ isNewline c) (hroom : t.col.val + 1 < cols) :
    (t.put isNewline c).row = t.row ∧ (t.put isNewline c).col.val = t.col.val + 1 ∧
      (t.put isNewline c).cells = (t.set c).cells := by
  have hput : t.put isNewline c = { t.set c with col := t.col + 1 } := by
    rw [put, if_neg hc, advance]
    exact if_pos hroom
  rw [hput]
  exact ⟨rfl, val_col_add_one t hroom, rfl⟩

/-- A text that ends before its row does. -/
theorem puts_text {cs : List α} (hcs : ∀ c ∈ cs, ¬ isNewline c)
    (hroom : t.col.val + cs.length < cols) :
    (t.puts isNewline cs).row = t.row ∧
      ∀ r k, (t.puts isNewline cs).cells r k =
        if r = t.row ∧ t.col.val ≤ k.val ∧ k.val < t.col.val + cs.length then
          cs[k.val - t.col.val]?
        else t.cells r k := by
  induction cs generalizing t with
  | nil =>
    refine ⟨rfl, fun r k ↦ ?_⟩
    rw [if_neg (by rw [List.length_nil]; omega)]
    rfl
  | cons c cs ih =>
    rw [List.length_cons] at hroom ⊢
    have ⟨hrow, hcol, hcells⟩ := put_text (t := t) (hcs c List.mem_cons_self) (by omega)
    have ⟨hrow', hcells'⟩ := @ih (t.put isNewline c)
      (fun c' hc' ↦ hcs c' (List.mem_cons_of_mem _ hc')) (by omega)
    refine ⟨hrow'.trans hrow, fun r k ↦ (hcells' r k).trans ?_⟩
    rw [hrow, hcol, hcells, cells_set]
    by_cases hr : r = t.row
    · by_cases hk : k.val = t.col.val
      · rw [if_neg (by omega), if_pos ⟨hr, Fin.ext hk⟩, if_pos (by omega), hk, Nat.sub_self]
        rfl
      · have hne : k ≠ t.col := fun h ↦ hk (congrArg Fin.val h)
        by_cases hin : t.col.val + 1 ≤ k.val ∧ k.val < t.col.val + 1 + cs.length
        · rw [if_pos ⟨hr, hin⟩, if_pos (by omega),
            show k.val - t.col.val = k.val - (t.col.val + 1) + 1 by omega, List.getElem?_cons_succ]
        · rw [if_neg (by omega), if_neg (by simp [hne]), if_neg (by omega)]
    · simp [hr]

/-- A line that ends before its row does. -/
theorem puts_line {cs : List α} {nl : α} (hcs : ∀ c ∈ cs, ¬ isNewline c) (hnl : isNewline nl)
    (hroom : cs.length < cols) (hcol : t.col = 0) :
    (t.puts isNewline (cs ++ [nl])).row = t.row + 1 ∧ (t.puts isNewline (cs ++ [nl])).col = 0 ∧
      ∀ r k, (t.puts isNewline (cs ++ [nl])).cells r k =
        if r = t.row ∧ k.val < cs.length then cs[k.val]? else t.cells r k := by
  have hzero : t.col.val = 0 := by rw [hcol]; rfl
  have ⟨hrow, hcells⟩ := puts_text (t := t) hcs (by omega)
  have hend : t.puts isNewline (cs ++ [nl]) = (t.puts isNewline cs).newline := by
    rw [puts_append]
    exact if_pos hnl
  rw [hend]
  refine ⟨congrArg (· + 1) hrow, rfl, fun r k ↦ ?_⟩
  refine (hcells r k).trans ?_
  rw [hzero]
  simp

/-- Lines that fit into the rows left are shown one below the other, and nothing above them
changes. -/
theorem puts_lines {lines : List (List α)} {nl : α} (hnl : isNewline nl)
    (hlines : ∀ cs ∈ lines, cs.length < cols ∧ ∀ c ∈ cs, ¬ isNewline c) (hcol : t.col = 0)
    (hroom : t.row.val + lines.length ≤ rows) :
    (∀ r k, r.val < t.row.val →
      (t.puts isNewline (lines.flatMap fun cs ↦ cs ++ [nl])).cells r k = t.cells r k) ∧
    ∀ i (h : i < lines.length) (r : Fin rows) (k : Fin cols), r.val = t.row.val + i →
      k.val < lines[i].length →
      (t.puts isNewline (lines.flatMap fun cs ↦ cs ++ [nl])).cells r k = lines[i][k.val]? := by
  induction lines generalizing t with
  | nil => exact ⟨fun r k _ ↦ rfl, fun i h ↦ absurd h (Nat.not_lt_zero i)⟩
  | cons cs lines ih =>
    rw [List.forall_mem_cons] at hlines
    rw [List.length_cons] at hroom
    have ⟨hrow, hcol', hcells⟩ := puts_line (t := t) hlines.1.2 hnl hlines.1.1 hcol
    rw [List.flatMap_cons, puts_append]
    by_cases hlast : lines = []
    · subst hlast
      refine ⟨fun r k hr ↦ ?_, fun i hi r k hr hk ↦ ?_⟩
      · refine (hcells r k).trans (if_neg ?_)
        rintro ⟨rfl, -⟩
        exact lt_irrefl _ hr
      · obtain rfl : i = 0 := by simpa using hi
        exact (hcells r k).trans (if_pos ⟨Fin.ext hr, hk⟩)
    · -- the rows go on, so that the first line is above the others
      have hpos : 0 < lines.length := List.length_pos_of_ne_nil hlast
      have hnext : (t.puts isNewline (cs ++ [nl])).row.val = t.row.val + 1 := by
        rw [hrow]
        exact (val_row_newline t).trans (if_pos (by omega))
      have ⟨habove, hbelow⟩ := ih hlines.2 hcol' (by omega)
      refine ⟨fun r k hr ↦ ?_, fun i hi r k hr hk ↦ ?_⟩
      · rw [habove r k (by omega), hcells r k]
        apply if_neg
        rintro ⟨rfl, -⟩
        exact lt_irrefl _ hr
      · cases i with
        | zero =>
          rw [habove r k (by omega), hcells r k]
          exact if_pos ⟨Fin.ext hr, hk⟩
        | succ i => exact hbelow i (Nat.lt_of_succ_lt_succ hi) r k (by omega) hk

end

end Terminal
