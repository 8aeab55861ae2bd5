import AphroditeOs.Lib.LinkChain
import AphroditeOs.Lib.Transition

/-!
# The list with a single head pointer (`include/linux/list.h`)

`pprev` is the address of the pointer to the node: the `first` of a head or the `next` of the node
before.  `hlist_add_after` leaves that pointer as it is, so that its node is not on the list.
-/

namespace AphroditeOs

/-- Where a `struct hlist_node *` is stored. -/
inductive HlistSlot (η ν : Type*) where
  | first (h : η)
  | next (n : ν)
  deriving DecidableEq, Repr

structure HlistHeap (η ν : Type*) where
  first : η → Option ν
  next : ν → Option ν
  pprev : ν → Option (HlistSlot η ν)

namespace HlistHeap

variable {η ν : Type*}

def load (s : HlistHeap η ν) : HlistSlot η ν → Option ν
  | .first h => s.first h
  | .next n => s.next n

variable [DecidableEq η] [DecidableEq ν]

def store (slot : HlistSlot η ν) (value : Option ν) (s : HlistHeap η ν) : HlistHeap η ν :=
  match slot with
  | .first h => { s with first := Function.update s.first h value }
  | .next n => { s with next := Function.update s.next n value }

def setPprev (n : ν) (value : Option (HlistSlot η ν)) (s : HlistHeap η ν) : HlistHeap η ν :=
  { s with pprev := Function.update s.pprev n value }

/-- `INIT_HLIST_HEAD` -/
def initHlistHead (h : η) (s : HlistHeap η ν) : HlistHeap η ν := s.store (.first h) none

def hlistAddHead (n : ν) (h : η) (s : HlistHeap η ν) : HlistHeap η ν :=
  let first := s.first h
  let s := s.store (.next n) first
  let s := match first with
    | some x => s.setPprev x (some (.next n))
    | none => s
  (s.store (.first h) (some n)).setPprev n (some (.first h))

/-- `none` where `*(n->pprev)` goes through a null pointer. -/
def hlistAddBefore (n next : ν) (s : HlistHeap η ν) : Option (HlistHeap η ν) :=
  let s := s.store (.next n) (some next)
  let s := s.setPprev n (s.pprev next)
  let s := s.setPprev next (some (.next n))
  (s.pprev n).map fun slot ↦ s.store slot (some n)

def hlistAddAfter (n next : ν) (s : HlistHeap η ν) : HlistHeap η ν :=
  (s.store (.next n) (s.next next)).setPprev n (some (.next next))

/-- The nodes that are met from a slot on, at most `fuel` of them. -/
def walk (s : HlistHeap η ν) : Nat → HlistSlot η ν → List ν
  | 0, _ => []
  | fuel + 1, slot =>
    match s.load slot with
    | none => []
    | some n => n :: walk s fuel (.next n)

end HlistHeap

inductive HlistOp (ν : Type*) where
  | addHead (n : ν)
  | addBefore (n next : ν)
  | addAfter (n next : ν)
  deriving DecidableEq, Repr

namespace HlistOp

variable {η ν : Type*} [DecidableEq η] [DecidableEq ν]

/-- The operation on the list at `h`. -/
def run (h : η) (s : HlistHeap η ν) : HlistOp ν → Option (HlistHeap η ν)
  | addHead n => some (s.hlistAddHead n h)
  | addBefore n next => s.hlistAddBefore n next
  | addAfter n next => some (s.hlistAddAfter n next)

def insertBefore (n next : ν) : List ν → List ν
  | [] => []
  | x :: xs => if x = next then n :: x :: xs else x :: insertBefore n next xs

def insertAfter (n next : ν) : List ν → List ν
  | [] => []
  | x :: xs => if x = next then x :: n :: xs else x :: insertAfter n next xs

/-- What the operation is for: a new node, at the head or beside a node of the list. -/
def apply (xs : List ν) : HlistOp ν → Option (List ν)
  | addHead n => if n ∉ xs then some (n :: xs) else none
  | addBefore n next => if n ∉ xs ∧ next ∈ xs then some (insertBefore n next xs) else none
  | addAfter n next => if n ∉ xs ∧ next ∈ xs then some (insertAfter n next xs) else none

def isAddAfter : HlistOp ν → Bool
  | addAfter _ _ => true
  | _ => false

end HlistOp

namespace HlistHeap

variable {η ν : Type*}

/-- The list at `h` is well formed and has the nodes `xs`. -/
structure WellFormed (s : HlistHeap η ν) (h : η) (xs : List ν) : Prop where
  pprev : ∀ n ∈ xs, ∃ slot, s.pprev n = some slot ∧ s.load slot = some n
  walk : ∀ fuel, xs.length ≤ fuel → s.walk fuel (.first h) = xs
  nodup : xs.Nodup

/-! ## The chain of slots -/

/-- The slot of the node in `p` is `q`, and its `pprev` is `p`. -/
def Links (s : HlistHeap η ν) (p q : HlistSlot η ν) : Prop :=
  ∃ n, q = .next n ∧ s.load p = some n ∧ s.pprev n = some p

/-- The slots from `slot` on are linked through the nodes `xs`, and the last one is null. -/
structure Chained (s : HlistHeap η ν) (slot : HlistSlot η ν) (xs : List ν) : Prop where
  links : (slot :: xs.map HlistSlot.next).IsChain s.Links
  ends : ∀ p ∈ (slot :: xs.map HlistSlot.next).getLast?, s.load p = none

variable {s t : HlistHeap η ν} {slot a : HlistSlot η ν} {h : η} {xs : List ν} {n y : ν}

theorem Chained.walk (hs : s.Chained slot xs) {fuel : Nat} (hfuel : xs.length ≤ fuel) :
    s.walk fuel slot = xs := by
  induction xs generalizing slot fuel with
  | nil =>
    have hnone := hs.ends slot (by simp)
    cases fuel with
    | zero => rfl
    | succ fuel => rw [HlistHeap.walk, hnone]
  | cons x xs ih =>
    obtain ⟨hlink, hrest⟩ := List.isChain_cons_cons.mp hs.links
    obtain ⟨n, heq, hload, -⟩ := hlink
    obtain rfl := HlistSlot.next.inj heq
    cases fuel with
    | zero => simp at hfuel
    | succ fuel =>
      have hchained : s.Chained (.next x) xs := by
        refine ⟨hrest, fun p hp ↦ hs.ends p ?_⟩
        rwa [List.map_cons, List.getLast?_cons_cons]
      rw [HlistHeap.walk, hload]
      exact congrArg (x :: ·) (ih hchained (by simpa using hfuel))

theorem Chained.exists_pprev (hs : s.Chained slot xs) {x : ν} (hx : x ∈ xs) :
    ∃ p, s.pprev x = some p ∧ s.load p = some x := by
  have htarget : HlistSlot.next x ∈ (slot :: xs.map HlistSlot.next).tail :=
    List.mem_map_of_mem hx
  obtain ⟨p, -, n, heq, hload, hpprev⟩ := LinkChain.exists_rel_of_mem_tail hs.links htarget
  obtain rfl := HlistSlot.next.inj heq
  exact ⟨p, hpprev, hload⟩

-- What an operation does elsewhere leaves a list as it is.
theorem Chained.congr (hs : s.Chained slot xs)
    (hload : ∀ p ∈ slot :: xs.map HlistSlot.next, t.load p = s.load p)
    (hpprev : ∀ x ∈ xs, t.pprev x = s.pprev x) : t.Chained slot xs := by
  constructor
  · apply LinkChain.isChain_of_agree hs.links
    rintro p hp q hq ⟨x, rfl, hp', hx⟩
    have hmem : x ∈ xs := by simpa using hq
    exact ⟨x, rfl, (hload p (List.mem_of_mem_dropLast hp)).trans hp', (hpprev x hmem).trans hx⟩
  · intro p hp
    rw [hload p (List.mem_of_getLast? hp)]
    exact hs.ends p hp

/-- **Linking in a node.** The node in slot `a` is `y`; afterwards it is `n`, and `y` is in the slot
of `n`. -/
theorem Chained.insert {xs' : List ν} {l r : List (HlistSlot η ν)} (hs : s.Chained slot xs)
    (hnodup : (slot :: xs.map HlistSlot.next).Nodup) (hn : HlistSlot.next n ∉ slot :: xs.map .next)
    (hold : slot :: xs.map HlistSlot.next = l ++ a :: .next y :: r)
    (hnew : slot :: xs'.map HlistSlot.next = l ++ a :: .next n :: .next y :: r)
    (hload : ∀ p, p ≠ a → p ≠ .next n → t.load p = s.load p)
    (hpprev : ∀ x, x ≠ y → x ≠ n → t.pprev x = s.pprev x)
    (ha : t.load a = some n ∧ t.pprev n = some a)
    (hy : t.load (.next n) = some y ∧ t.pprev y = some (.next n)) : t.Chained slot xs' := by
  have hlinks := hs.links
  rw [hold] at hlinks hnodup hn
  simp only [List.mem_append, List.mem_cons, not_or] at hn
  obtain ⟨-, hright, hsplit⟩ := List.nodup_append.mp hnodup
  have hla : ∀ p ∈ l, p ≠ a := fun p hp ↦ hsplit p hp a List.mem_cons_self
  have hra : ∀ p ∈ .next y :: r, p ≠ a := by
    rintro p hp rfl
    exact (List.nodup_cons.mp hright).1 hp
  have hrn : ∀ p ∈ .next y :: r, p ≠ .next n := by
    rintro p hp rfl
    exact (List.mem_cons.mp hp).elim hn.2.2.1 hn.2.2.2
  constructor
  · rw [hnew]
    refine LinkChain.isChain_insert hlinks ?_ ?_ ⟨n, rfl, ha⟩ ⟨y, rfl, hy⟩
    · rintro p hp q hq ⟨x, rfl, hp', hx⟩
      have hq' : HlistSlot.next x ∈ l ++ [a] := List.mem_of_mem_tail hq
      have hxy : x ≠ y := by
        rintro rfl
        rcases List.mem_append.mp hq' with hmem | hmem
        · exact hsplit _ hmem (.next x) (by simp) rfl
        · exact hra (.next x) List.mem_cons_self (List.mem_singleton.mp hmem)
      have hxn : x ≠ n := by
        rintro rfl
        rcases List.mem_append.mp hq' with hmem | hmem
        · exact hn.1 hmem
        · exact hn.2.1 (List.mem_singleton.mp hmem)
      have hpn : p ≠ .next n := fun heq ↦ hn.1 (heq ▸ hp)
      exact ⟨x, rfl, (hload p (hla p hp) hpn).trans hp', (hpprev x hxy hxn).trans hx⟩
    · rintro p hp q hq ⟨x, rfl, hp', hx⟩
      have hmem := List.mem_of_mem_dropLast hp
      have hxy : x ≠ y := by
        rintro rfl
        exact (List.nodup_cons.mp (List.nodup_cons.mp hright).2).1 hq
      have hxn : x ≠ n := by
        rintro rfl
        exact hn.2.2.2 hq
      exact ⟨x, rfl, (hload p (hra p hmem) (hrn p hmem)).trans hp', (hpprev x hxy hxn).trans hx⟩
  · intro p hp
    rw [hnew, List.getLast?_append_cons, List.getLast?_cons_cons, List.getLast?_cons_cons] at hp
    have hmem := List.mem_of_getLast? hp
    rw [hload p (hra p hmem) (hrn p hmem)]
    apply hs.ends p
    rwa [hold, List.getLast?_append_cons, List.getLast?_cons_cons]

/-- The list at `h`, with its nodes. -/
def ListAt (s : HlistHeap η ν) (h : η) (xs : List ν) : Prop := s.Chained (.first h) xs ∧ xs.Nodup

theorem ListAt.wellFormed (hs : s.ListAt h xs) : s.WellFormed h xs :=
  ⟨fun _ hn ↦ hs.1.exists_pprev hn, fun _ hfuel ↦ hs.1.walk hfuel, hs.2⟩

theorem nodup_slots (hxs : xs.Nodup) : (.first h :: xs.map HlistSlot.next).Nodup := by
  rw [List.nodup_cons]
  refine ⟨by simp, hxs.map fun _ _ ↦ HlistSlot.next.inj⟩

section

variable [DecidableEq ν]

@[simp]
theorem load_setPprev (value : Option (HlistSlot η ν)) : (s.setPprev n value).load = s.load := by
  funext p
  cases p <;> rfl

theorem pprev_setPprev (x : ν) (value : Option (HlistSlot η ν)) :
    (s.setPprev n value).pprev x = if x = n then value else s.pprev x :=
  Function.update_apply ..

variable [DecidableEq η]

theorem load_store (p : HlistSlot η ν) (value : Option ν) :
    (s.store slot value).load p = if p = slot then value else s.load p := by
  cases slot with
  | first h =>
    cases p with
    | first k => simp [store, load, Function.update_apply]
    | next m => simp [store, load]
  | next m =>
    cases p with
    | first k => simp [store, load]
    | next k => simp [store, load, Function.update_apply]

@[simp]
theorem pprev_store (value : Option ν) : (s.store slot value).pprev = s.pprev := by
  cases slot <;> rfl

/-! ## The operations -/

theorem listAt_initHlistHead (h : η) (s : HlistHeap η ν) : (s.initHlistHead h).ListAt h [] := by
  refine ⟨⟨List.isChain_singleton _, fun p hp ↦ ?_⟩, List.nodup_nil⟩
  obtain rfl : .first h = p := by simpa using hp
  rw [initHlistHead, load_store, if_pos rfl]

theorem ListAt.hlistAddHead (hs : s.ListAt h xs) (hn : n ∉ xs) :
    (s.hlistAddHead n h).ListAt h (n :: xs) := by
  refine ⟨?_, List.nodup_cons.mpr ⟨hn, hs.2⟩⟩
  cases xs with
  | nil =>
    have hnone : s.load (.first h) = none := hs.1.ends _ (by simp)
    have hfirst : s.first h = none := hnone
    unfold HlistHeap.hlistAddHead
    rw [hfirst]
    dsimp only
    constructor
    · rw [List.map_singleton, List.isChain_pair]
      refine ⟨n, rfl, ?_, ?_⟩
      · simp [load_store]
      · simp [pprev_setPprev]
    · intro p hp
      obtain rfl : .next n = p := by simpa using hp
      simp [load_store]
  | cons y r =>
    have hlink := (List.isChain_cons_cons.mp hs.1.links).1
    have hfirst : s.first h = some y := by
      obtain ⟨x, heq, hload, -⟩ := hlink
      rw [HlistSlot.next.inj heq]
      exact hload
    have hyn : y ≠ n := fun heq ↦ hn (heq ▸ List.mem_cons_self)
    have hslot : HlistSlot.next n ∉ .first h :: (y :: r).map HlistSlot.next := by
      simpa using hn
    unfold HlistHeap.hlistAddHead
    rw [hfirst]
    dsimp only
    refine hs.1.insert (nodup_slots hs.2) hslot (l := []) rfl rfl ?_ ?_ ?_ ?_
    · intro p hpa hpn
      simp [load_store, hpa, hpn]
    · intro x hxy hxn
      simp [pprev_setPprev, hxy, hxn]
    · simp [load_store, pprev_setPprev]
    · simp [load_store, pprev_setPprev, hyn]

theorem insertBefore_append {l r : List ν} (hy : y ∉ l) :
    HlistOp.insertBefore n y (l ++ y :: r) = l ++ n :: y :: r := by
  induction l with
  | nil => simp [HlistOp.insertBefore]
  | cons x l ih =>
    rw [List.mem_cons, not_or] at hy
    rw [List.cons_append, HlistOp.insertBefore, if_neg (Ne.symm hy.1), ih hy.2]
    rfl

theorem mem_insertAfter {xs : List ν} (hy : y ∈ xs) : n ∈ HlistOp.insertAfter n y xs := by
  induction xs with
  | nil => simp at hy
  | cons x xs ih =>
    rw [HlistOp.insertAfter]
    split_ifs with hx
    · simp
    · exact List.mem_cons_of_mem x (ih (List.mem_of_ne_of_mem (Ne.symm hx) hy))

theorem ListAt.hlistAddBefore (hs : s.ListAt h xs) (hn : n ∉ xs) (hy : y ∈ xs) :
    ∃ t, s.hlistAddBefore n y = some t ∧ t.ListAt h (HlistOp.insertBefore n y xs) := by
  obtain ⟨l, r, rfl⟩ := List.append_of_mem hy
  have hyl : y ∉ l := fun hmem ↦
    (List.nodup_append.mp hs.2).2.2 y hmem y List.mem_cons_self rfl
  have hyn : y ≠ n := fun heq ↦ hn (heq ▸ hy)
  -- the slot before, which is of the head when `y` is the first node
  obtain ⟨l', a, hslots⟩ : ∃ l' a, .first h :: l.map HlistSlot.next = l' ++ [a] :=
    ⟨_, _, (List.dropLast_append_getLast (List.cons_ne_nil _ _)).symm⟩
  have hold : .first h :: (l ++ y :: r).map HlistSlot.next =
      l' ++ a :: .next y :: r.map .next := by
    rw [List.map_append, ← List.cons_append, hslots]
    simp
  have hnew : .first h :: (l ++ n :: y :: r).map HlistSlot.next =
      l' ++ a :: .next n :: .next y :: r.map .next := by
    rw [List.map_append, ← List.cons_append, hslots]
    simp
  have hslot : HlistSlot.next n ∉ .first h :: (l ++ y :: r).map HlistSlot.next := by
    simpa using hn
  have han : a ≠ .next n := by
    rintro rfl
    apply hslot
    rw [hold]
    simp
  have hpprev : s.pprev y = some a := by
    have hlinks := hs.1.links
    rw [hold, List.isChain_append_cons_cons] at hlinks
    obtain ⟨x, heq, -, hx⟩ := hlinks.2.1
    rw [HlistSlot.next.inj heq]
    exact hx
  have hrun : s.hlistAddBefore n y = some ((((s.store (.next n) (some y)).setPprev n
      (some a)).setPprev y (some (.next n))).store a (some n)) := by
    unfold HlistHeap.hlistAddBefore
    dsimp only
    rw [pprev_setPprev, if_neg hyn.symm, pprev_setPprev, if_pos rfl, pprev_store, hpprev]
    rfl
  refine ⟨_, hrun, ?_, ?_⟩
  · rw [insertBefore_append hyl]
    refine hs.1.insert (nodup_slots hs.2) hslot hold hnew ?_ ?_ ?_ ?_
    · intro p hpa hpn
      simp [load_store, hpa, hpn]
    · intro x hxy hxn
      simp [pprev_setPprev, hxy, hxn]
    · simp [load_store, pprev_setPprev, hyn.symm]
    · simp [load_store, pprev_setPprev, han.symm]
  · rw [insertBefore_append hyl, List.nodup_middle, List.nodup_cons]
    exact ⟨hn, hs.2⟩

-- The new node points to the list, and nothing of the list to the new node.
theorem ListAt.hlistAddAfter (hs : s.ListAt h xs) (hn : n ∉ xs) :
    (s.hlistAddAfter n y).ListAt h xs := by
  refine ⟨hs.1.congr ?_ ?_, hs.2⟩
  · intro p hp
    have hpn : p ≠ .next n := by
      rintro rfl
      exact hn (by simpa using hp)
    rw [HlistHeap.hlistAddAfter, load_setPprev, load_store, if_neg hpn]
  · intro x hx
    have hxn : x ≠ n := fun heq ↦ hn (heq ▸ hx)
    rw [HlistHeap.hlistAddAfter, pprev_setPprev, if_neg hxn, pprev_store]

/-! ## Any sequence of operations -/

theorem ListAt.run {op : HlistOp ν} {ys : List ν} (hs : s.ListAt h xs)
    (hop : op.isAddAfter = false) (happly : op.apply xs = some ys) :
    ∃ t, op.run h s = some t ∧ t.ListAt h ys := by
  cases op with
  | addHead n =>
    obtain ⟨hn, heq⟩ := Option.ite_none_right_eq_some.mp happly
    obtain rfl := Option.some.inj heq
    exact ⟨_, rfl, hs.hlistAddHead hn⟩
  | addBefore n next =>
    obtain ⟨hn, heq⟩ := Option.ite_none_right_eq_some.mp happly
    obtain rfl := Option.some.inj heq
    exact hs.hlistAddBefore hn.1 hn.2
  | addAfter n next => contradiction

theorem ListAt.foldlM {ops : List (HlistOp ν)} {ys : List ν} (hs : s.ListAt h xs)
    (hops : ∀ op ∈ ops, op.isAddAfter = false) (happly : ops.foldlM HlistOp.apply xs = some ys) :
    ∃ t, ops.foldlM (HlistOp.run h) s = some t ∧ t.ListAt h ys := by
  induction ops generalizing s xs with
  | nil =>
    obtain rfl := Option.some.inj happly
    exact ⟨s, rfl, hs⟩
  | cons op ops ih =>
    obtain ⟨zs, hzs, hrest⟩ := Transition.exists_of_foldlM_cons happly
    obtain ⟨t, ht, hlist⟩ := hs.run (hops op List.mem_cons_self) hzs
    obtain ⟨u, hu, hfinal⟩ := ih hlist (fun op' hop' ↦ hops op' (List.mem_cons_of_mem op hop')) hrest
    refine ⟨u, ?_, hfinal⟩
    rw [List.foldlM_cons, ht]
    exact hu

/-- After the operations the list at `h` has the nodes that they insert. -/
def RunsTo (s : HlistHeap η ν) (h : η) (ops : List (HlistOp ν)) : Prop :=
  ∃ t ys, ops.foldlM (HlistOp.run h) (s.initHlistHead h) = some t ∧
    ops.foldlM HlistOp.apply [] = some ys ∧ t.WellFormed h ys

theorem not_runsTo_addAfter (s : HlistHeap η ν) (h : η) (n y : ν) {pre : List (HlistOp ν)}
    (hpre : ∀ op ∈ pre, op.isAddAfter = false) :
    ¬ s.RunsTo h (pre ++ [.addAfter n y]) := by
  rintro ⟨t, ys, hrun, happly, hwf⟩
  obtain ⟨zs, hzs, hlast⟩ := Transition.exists_of_foldlM_append happly
  obtain ⟨u, hu, hlist⟩ := (listAt_initHlistHead h s).foldlM hpre hzs
  rw [List.foldlM_append, hu] at hrun
  obtain rfl : u.hlistAddAfter n y = t := Option.some.inj hrun
  obtain ⟨_, hafter, hnil⟩ := Transition.exists_of_foldlM_cons hlast
  obtain rfl := Option.some.inj hnil
  obtain ⟨hn, heq⟩ := Option.ite_none_right_eq_some.mp hafter
  obtain rfl := Option.some.inj heq
  -- the walk still is that of before
  have hwalk := (hlist.hlistAddAfter (y := y) hn.1).wellFormed.walk
    (zs.length + (HlistOp.insertAfter n y zs).length) (Nat.le_add_right ..)
  rw [hwf.walk _ (Nat.le_add_left ..)] at hwalk
  exact hn.1 (hwalk ▸ mem_insertAfter hn.2)

/-- **The list is well formed throughout exactly without `hlist_add_after`.** -/
theorem forall_runsTo_iff (s : HlistHeap η ν) (h : η) (ops : List (HlistOp ν))
    (hvalid : ∃ xs, ops.foldlM HlistOp.apply [] = some xs) :
    (∀ pre, pre <+: ops → s.RunsTo h pre) ↔ ∀ op ∈ ops, op.isAddAfter = false := by
  constructor
  · intro hall
    by_contra hex
    push Not at hex
    obtain ⟨op, hop, hafter⟩ := hex
    obtain ⟨bad, hbad⟩ : ∃ bad, ops.find? HlistOp.isAddAfter = some bad := by
      rw [← Option.isSome_iff_exists, List.find?_isSome]
      exact ⟨op, hop, by simpa using hafter⟩
    obtain ⟨hbad, pre, post, rfl, hpre⟩ := List.find?_eq_some_iff_append.mp hbad
    cases bad with
    | addAfter n y =>
      have hclear : ∀ op' ∈ pre, op'.isAddAfter = false := by
        intro op' hop'
        simpa using hpre op' hop'
      exact not_runsTo_addAfter s h n y hclear (hall _ ⟨post, by simp⟩)
    | addHead n => contradiction
    | addBefore n next => contradiction
  · rintro hops pre ⟨post, rfl⟩
    obtain ⟨xs, hxs⟩ := hvalid
    obtain ⟨ys, hys, -⟩ := Transition.exists_of_foldlM_append hxs
    have hpre : ∀ op ∈ pre, op.isAddAfter = false := fun op hop ↦
      hops op (List.mem_append_left post hop)
    obtain ⟨t, ht, hlist⟩ := (listAt_initHlistHead h s).foldlM hpre hys
    exact ⟨t, ys, ht, hys, hlist.wellFormed⟩

/-- A node put before the first one. -/
theorem runsTo_addBefore :
    (⟨fun _ ↦ none, fun _ ↦ none, fun _ ↦ none⟩ : HlistHeap Nat Nat).RunsTo 0
      [.addHead 0, .addBefore 1 0] :=
  (forall_runsTo_iff _ 0 [.addHead 0, .addBefore 1 0] ⟨[1, 0], rfl⟩).mpr (by decide) _
    List.prefix_rfl

/-- After `hlist_add_after` behind the only node, the walk meets one node. -/
theorem not_forall_runsTo :
    ¬ ∀ (s : HlistHeap Nat Nat) (h : Nat) (ops : List (HlistOp Nat)),
      (∃ xs, ops.foldlM HlistOp.apply [] = some xs) → s.RunsTo h ops := by
  intro hall
  have hrun := hall ⟨fun _ ↦ none, fun _ ↦ none, fun _ ↦ none⟩ 0 [.addHead 0, .addAfter 1 0]
    ⟨[0, 1], rfl⟩
  have hclear : ∀ op ∈ [HlistOp.addHead 0], op.isAddAfter = false := by decide
  exact not_runsTo_addAfter _ 0 1 0 hclear hrun

end

end HlistHeap

end AphroditeOs
