import AphroditeOs.Lib.LinkChain

/-!
# The circular list (`include/linux/list.h`)

A node is its address; the heap has the two fields of the `struct list_head` at each address.
-/

namespace AphroditeOs

structure ListHeap (α : Type*) where
  prev : α → α
  next : α → α

namespace ListHeap

variable {α : Type*} [DecidableEq α]

def setPrev (x value : α) (s : ListHeap α) : ListHeap α :=
  { s with prev := Function.update s.prev x value }

def setNext (x value : α) (s : ListHeap α) : ListHeap α :=
  { s with next := Function.update s.next x value }

/-- `INIT_LIST_HEAD` -/
def initListHead (ptr : α) (s : ListHeap α) : ListHeap α :=
  (s.setPrev ptr ptr).setNext ptr ptr

/-- `__list_add` -/
def listAddBetween (newNode prev next : α) (s : ListHeap α) : ListHeap α :=
  (((s.setPrev newNode prev).setNext prev newNode).setNext newNode next).setPrev next newNode

def listAdd (newNode head : α) (s : ListHeap α) : ListHeap α :=
  s.listAddBetween newNode head (s.next head)

def listAddTail (newNode head : α) (s : ListHeap α) : ListHeap α :=
  s.listAddBetween newNode (s.prev head) head

end ListHeap

inductive ListOp (α : Type*) where
  | add (newNode : α)
  | addTail (newNode : α)
  deriving DecidableEq, Repr

namespace ListOp

variable {α : Type*}

def newNode : ListOp α → α
  | add n => n
  | addTail n => n

/-- The operation on the heap. -/
def run [DecidableEq α] (head : α) (s : ListHeap α) : ListOp α → ListHeap α
  | add n => s.listAdd n head
  | addTail n => s.listAddTail n head

/-- What the operation is for. -/
def apply (xs : List α) : ListOp α → List α
  | add n => n :: xs
  | addTail n => xs ++ [n]

theorem mem_apply (op : ListOp α) (xs : List α) (x : α) :
    x ∈ op.apply xs ↔ x = op.newNode ∨ x ∈ xs := by
  cases op with
  | add n => exact List.mem_cons
  | addTail n =>
    rw [apply, List.mem_append, List.mem_singleton, or_comm]
    rfl

end ListOp

namespace ListHeap

variable {α : Type*}

/-- The list at `head` has the nodes `xs`, in both directions. -/
structure Represents (s : ListHeap α) (head : α) (xs : List α) : Prop where
  next_walk : List.iterate s.next (s.next head) (xs.length + 1) = xs ++ [head]
  prev_walk : List.iterate s.prev (s.prev head) (xs.length + 1) = xs.reverse ++ [head]
  prev_next : ∀ x ∈ head :: xs, s.prev (s.next x) = x
  next_prev : ∀ x ∈ head :: xs, s.next (s.prev x) = x

/-! ## The ring -/

def Links (s : ListHeap α) (x y : α) : Prop := s.next x = y ∧ s.prev y = x

/-- The nodes are distinct, and each is linked with its neighbours in the ring. -/
structure Ring (s : ListHeap α) (head : α) (xs : List α) : Prop where
  links : (head :: (xs ++ [head])).IsChain s.Links
  nodup : (head :: xs).Nodup

variable {s : ListHeap α} {head n : α} {xs : List α}

theorem Ring.represents (h : s.Ring head xs) : s.Represents head xs := by
  have hreverse : (head :: (xs.reverse ++ [head])).IsChain fun x y ↦ s.Links y x := by
    have := List.isChain_reverse (R := fun x y ↦ s.Links y x).mpr h.links
    simpa using this
  have hsources : (head :: (xs ++ [head])).dropLast = head :: xs := by
    rw [← List.cons_append, List.dropLast_concat]
  constructor
  · have := LinkChain.iterate_eq (h.links.imp fun _ _ hxy ↦ hxy.1)
    simpa using this
  · have := LinkChain.iterate_eq (hreverse.imp fun _ _ hxy ↦ hxy.2)
    simpa using this
  · intro x hx
    rw [← hsources] at hx
    obtain ⟨y, -, hnext, hprev⟩ := LinkChain.exists_rel_of_mem_dropLast h.links hx
    rw [hnext, hprev]
  · intro x hx
    have htarget : x ∈ (head :: (xs ++ [head])).tail := by
      rw [List.tail_cons, List.mem_append, List.mem_singleton]
      exact (List.mem_cons.mp hx).symm
    obtain ⟨y, -, hnext, hprev⟩ := LinkChain.exists_rel_of_mem_tail h.links htarget
    rw [hprev, hnext]

variable [DecidableEq α]

theorem ring_initListHead (head : α) (s : ListHeap α) : (s.initListHead head).Ring head [] := by
  constructor
  · show [head, head].IsChain _
    rw [List.isChain_pair]
    simp [Links, initListHead, setPrev, setNext]
  · simp

-- The two neighbours may be the same node.
theorem listAddBetween_links {a b : α} (hn : n ≠ a ∧ n ≠ b) :
    (s.listAddBetween n a b).Links a n ∧ (s.listAddBetween n a b).Links n b := by
  simp [Links, listAddBetween, setPrev, setNext, hn.1.symm, hn.2]

theorem Links.listAddBetween {a b x y : α} (h : s.Links x y) (hx : x ≠ a ∧ x ≠ n)
    (hy : y ≠ b ∧ y ≠ n) : (s.listAddBetween n a b).Links x y := by
  simp [Links, ListHeap.listAddBetween, setPrev, setNext, hx.1, hx.2, hy.1, hy.2, h.1, h.2]

/-- **Inserting in a ring.** `__list_add` of a new node between two neighbours, wherever they
are. -/
theorem isChain_listAddBetween {l r : List α} {a b : α} (h : (l ++ a :: b :: r).IsChain s.Links)
    (hsource : (l ++ a :: b :: r).dropLast.Nodup) (htarget : (l ++ a :: b :: r).tail.Nodup)
    (hn : n ∉ l ++ a :: b :: r) :
    (l ++ a :: n :: b :: r).IsChain (s.listAddBetween n a b).Links := by
  have hl : (l ++ a :: b :: r).dropLast = l ++ a :: (b :: r).dropLast := by
    rw [List.dropLast_append_of_ne_nil (List.cons_ne_nil _ _), List.dropLast_cons_cons]
  have hr : (l ++ a :: b :: r).tail = (l ++ [a]).tail ++ b :: r := by
    cases l <;> simp
  rw [hl, List.nodup_middle, List.nodup_cons, List.mem_append, not_or] at hsource
  rw [hr, List.nodup_middle, List.nodup_cons, List.mem_append, not_or] at htarget
  simp only [List.mem_append, List.mem_cons, not_or] at hn
  obtain ⟨ha, hb⟩ := listAddBetween_links (s := s) ⟨hn.2.1, hn.2.2.1⟩
  refine LinkChain.isChain_insert h ?_ ?_ ha hb
  · intro x hx y hy hxy
    apply hxy.listAddBetween
    · exact ⟨fun hxa ↦ hsource.1.1 (hxa ▸ hx), fun hxn ↦ hn.1 (hxn ▸ hx)⟩
    · refine ⟨fun hyb ↦ htarget.1.1 (hyb ▸ hy), fun hyn ↦ ?_⟩
      have := List.mem_of_mem_tail hy
      rw [hyn, List.mem_append, List.mem_singleton] at this
      exact this.elim hn.1 hn.2.1
  · intro x hx y hy hxy
    apply hxy.listAddBetween
    · refine ⟨fun hxa ↦ hsource.1.2 (hxa ▸ hx), fun hxn ↦ ?_⟩
      have := List.mem_of_mem_dropLast hx
      rw [hxn, List.mem_cons] at this
      exact this.elim hn.2.2.1 hn.2.2.2
    · exact ⟨fun hyb ↦ htarget.1.2 (hyb ▸ hy), fun hyn ↦ hn.2.2.2 (hyn ▸ hy)⟩

theorem Ring.isChain_insert (h : s.Ring head xs) {l r : List α} {a b : α}
    (hsplit : head :: (xs ++ [head]) = l ++ a :: b :: r) (hn : n ∉ head :: xs) :
    (l ++ a :: n :: b :: r).IsChain (s.listAddBetween n a b).Links := by
  have hsource : (head :: (xs ++ [head])).dropLast = head :: xs := by
    rw [← List.cons_append, List.dropLast_concat]
  apply isChain_listAddBetween
  · rw [← hsplit]
    exact h.links
  · rw [← hsplit, hsource]
    exact h.nodup
  · rw [← hsplit, List.tail_cons]
    exact (List.perm_append_singleton head xs).nodup_iff.mpr h.nodup
  · rw [← hsplit, ← List.cons_append, List.mem_append, List.mem_singleton, not_or]
    exact ⟨hn, fun heq ↦ hn (heq ▸ List.mem_cons_self)⟩

-- The neighbours are the head and the first node, which is the head again in an empty list.
theorem Ring.listAdd (h : s.Ring head xs) (hn : n ∉ head :: xs) :
    (s.listAdd n head).Ring head (n :: xs) := by
  obtain ⟨b, r, hfirst⟩ : ∃ b r, xs ++ [head] = b :: r :=
    List.exists_cons_of_ne_nil (by simp)
  have hnext : s.next head = b := by
    have hlinks := h.links
    rw [hfirst, List.isChain_cons_cons] at hlinks
    exact hlinks.1.1
  constructor
  · rw [ListHeap.listAdd, hnext, List.cons_append, hfirst]
    apply h.isChain_insert (l := []) _ hn
    rw [hfirst]
    rfl
  · rw [List.nodup_cons, List.mem_cons, not_or, List.nodup_cons]
    have hnodup := List.nodup_cons.mp h.nodup
    rw [List.mem_cons, not_or] at hn
    exact ⟨⟨fun heq ↦ hn.1 heq.symm, hnodup.1⟩, hn.2, hnodup.2⟩

theorem Ring.listAddTail (h : s.Ring head xs) (hn : n ∉ head :: xs) :
    (s.listAddTail n head).Ring head (xs ++ [n]) := by
  obtain ⟨l, a, hlast⟩ : ∃ l a, head :: xs = l ++ [a] :=
    ⟨_, _, (List.dropLast_append_getLast (List.cons_ne_nil head xs)).symm⟩
  have hsplit : head :: (xs ++ [head]) = l ++ a :: head :: [] := by
    rw [← List.cons_append, hlast, List.append_assoc]
    rfl
  have hprev : s.prev head = a := by
    have hlinks := h.links
    rw [hsplit, List.isChain_append_cons_cons] at hlinks
    exact hlinks.2.1.2
  constructor
  · have hchain := h.isChain_insert hsplit hn
    rw [ListHeap.listAddTail, hprev, List.append_assoc, ← List.cons_append, hlast]
    simpa using hchain
  · rw [← List.cons_append, (List.perm_append_singleton n (head :: xs)).nodup_iff]
    exact List.nodup_cons.mpr ⟨hn, h.nodup⟩

/-! ## Any sequence of insertions -/

theorem Ring.run (h : s.Ring head xs) (op : ListOp α) (hn : op.newNode ∉ head :: xs) :
    (op.run head s).Ring head (op.apply xs) := by
  cases op with
  | add n => exact h.listAdd hn
  | addTail n => exact h.listAddTail hn

theorem Ring.foldl {ops : List (ListOp α)} (h : s.Ring head xs)
    (hfresh : (ops.map ListOp.newNode).Nodup)
    (hnew : ∀ op ∈ ops, op.newNode ∉ head :: xs) :
    (ops.foldl (ListOp.run head) s).Ring head (ops.foldl ListOp.apply xs) := by
  induction ops generalizing s xs with
  | nil => exact h
  | cons op ops ih =>
    rw [List.map_cons, List.nodup_cons] at hfresh
    apply ih (h.run op (hnew op List.mem_cons_self)) hfresh.2
    intro op' hop'
    have hold := hnew op' (List.mem_cons_of_mem op hop')
    rw [List.mem_cons, not_or] at hold ⊢
    refine ⟨hold.1, fun hmem ↦ ?_⟩
    rcases (op.mem_apply _ _).mp hmem with heq | hmem
    · exact hfresh.1 (heq ▸ List.mem_map_of_mem hop')
    · exact hold.2 hmem

/-- **The circular list refines a sequence.** `list_add` is `cons`, `list_add_tail` appends, and
the heap has the nodes in both directions, whatever it held before. -/
theorem represents_foldl (s : ListHeap α) (head : α) (ops : List (ListOp α))
    (hfresh : (head :: ops.map ListOp.newNode).Nodup) :
    (ops.foldl (ListOp.run head) (s.initListHead head)).Represents head
      (ops.foldl ListOp.apply []) := by
  rw [List.nodup_cons] at hfresh
  apply ((ring_initListHead head s).foldl hfresh.2 _).represents
  intro op hop
  rw [List.mem_singleton]
  rintro rfl
  exact hfresh.1 (List.mem_map_of_mem hop)

/-- Three nodes at the head 0 of a heap of zeros. -/
theorem represents_three :
    ([.add 1, .addTail 2, .add 3].foldl (ListOp.run 0)
      ((⟨fun _ ↦ 0, fun _ ↦ 0⟩ : ListHeap Nat).initListHead 0)).Represents 0 [3, 1, 2] :=
  represents_foldl _ 0 [.add 1, .addTail 2, .add 3] (by decide)

end ListHeap

end AphroditeOs
