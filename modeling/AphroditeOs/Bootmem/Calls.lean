import AphroditeOs.Bootmem.Area
import AphroditeOs.Bootmem.FirstFit
import AphroditeOs.Lib.Transition

/-!
# Sequences of boot allocator calls

Any calls in any order after `init_bootmem`, with frees and reservations of any region.  The hints
stay in order whatever the calls are.
-/

namespace AphroditeOs

inductive BootCall where
  | alloc (size align goal : Word)
  | free (addr size : Word)
  | reserve (addr size : Word)
  deriving DecidableEq, Repr

/-- The state after a call; `none` for an allocation that does not return. -/
def bootStep (ALIGN : Word → Word → Word) (s : BootState) : BootCall → Option BootState
  | .alloc size align goal => (allocBootmemCore ALIGN size align goal s).toOption.map Prod.snd
  | .free addr size => some (freeBootmem addr size s)
  | .reserve addr size => some (reserveBootmem addr size s)

/-- Allocations are for sizes that do not wrap, and aligned to powers of two. -/
def BootCall.Ok : BootCall → Prop
  | .alloc size align _ => Admissible size align
  | .free _ _ => True
  | .reserve _ _ => True

/-- Allocations are for sizes that do not wrap, with any alignment that passes the checks. -/
def BootCall.Passes : BootCall → Prop
  | .alloc size align _ => 1 ≤ size.toNat ∧ size.toNat ≤ 2 ^ 32 - 4096 ∧ AlignOk align
  | .free _ _ => True
  | .reserve _ _ => True

/-- What the calls keep of the node: the hints stay below its end. -/
structure NodeOk (b : BootmemData) : Prop extends ZeroNode b, TailOk b where
  lastSuccess_le : b.lastSuccess.toNat ≤ 2 ^ 30

section

variable {ALIGN : Word → Word → Word} {s : BootState} {size align goal start : Word}

/-- An allocation takes the area at the page the call settles on, or returns `NULL` when there is
no such page. -/
theorem allocBootmemCore_settles (goal : Word) (hA : AlignSpec ALIGN)
    (hnode : ZeroNode s.bdata) (htail : TailOk s.bdata) (h : Admissible size align) :
    ((∀ p, ¬ SettlesOn s size align goal p) ∧
        allocBootmemCore ALIGN size align goal s = .ok (none, s)) ∨
      ∃ start, SettlesOn s size align goal start.toNat ∧
        ViableStart s size align start.toNat ∧
        allocBootmemCore ALIGN size align goal s =
          .ok (some (va (BitVec.ofNat 32 (regionAddr s.bdata align start))),
            allocEffect s size align start) := by
  have halign : AlignOk align := Or.inl h.align_pow
  have hiff : ∀ start, findStart ALIGN s size align goal = .found start ↔
      SettlesOn s size align goal start.toNat := fun _ ↦ findStart_found_iff hA hnode.indexed h
  have hpos := h.size_pos
  rcases findStart_cases goal hA hnode hpos h.size_le halign with hr | ⟨start, hr, hv⟩
  · left
    refine ⟨fun p hp ↦ ?_, by rw [allocBootmemCore_eq (by omega) halign, hr]⟩
    -- a page settled on lies in the node, so it is the value of a word
    have hlow := hnode.nodeLowPfn
    have hfit := hp.viable.2.1
    have hval : (BitVec.ofNat 32 p).toNat = p := by
      rw [toNat_ofNat_of_lt (by omega)]
    rw [← hval, ← hiff, hr] at hp
    contradiction
  · exact Or.inr ⟨start, (hiff start).mp hr, hv,
      allocBootmemCore_of_found hA hnode htail hpos h.size_le halign hr⟩

/-! ## One call -/

theorem BootCall.Ok.passes {c : BootCall} (h : c.Ok) : c.Passes := by
  cases c with
  | alloc size align goal => exact ⟨h.size_pos, h.size_le, Or.inl h.align_pow⟩
  | free addr size => trivial
  | reserve addr size => trivial

theorem nodeOk_allocEffect (hs : NodeOk s.bdata) (halign : AlignOk align)
    (hsize : 1 ≤ size.toNat) (hv : ViableStart s size align start.toNat) :
    NodeOk (allocEffect s size align start).bdata := by
  have htail := tailOk_nextHints hs.toZeroNode hs.toTailOk halign hsize hv.2.1
  refine ⟨zeroNode_nextHints hs.toZeroNode, htail, ?_⟩
  have hlow := hs.nodeLowPfn
  have hfit := hv.2.1
  show (start <<< pageShift).toNat ≤ 2 ^ 30
  rw [toNat_shiftLeft_pageShift _ (by omega)]
  omega

theorem nodeOk_freeBootmem (hs : NodeOk s.bdata) (addr size : Word) :
    NodeOk (freeBootmem addr size s).bdata := by
  have hle : (freeBootmem addr size s).bdata.lastSuccess.toNat ≤ s.bdata.lastSuccess.toNat :=
    lastSuccess_freeBootmem_le addr size s
  obtain ⟨hboot, hnode, hoff, hlast⟩ := hints_freeBootmem addr size s
  constructor
  · exact ⟨by rw [hboot]; exact hs.nodeBootStart, by rw [hnode]; exact hs.nodeLowPfn⟩
  · exact ⟨by rw [hoff]; exact hs.lastOffset_lt, by rw [hoff, hlast, hnode]; exact hs.lastPos_lt⟩
  · exact hle.trans hs.lastSuccess_le

/-- Every call returns, and leaves the hints in order. -/
theorem NodeOk.step (hA : AlignSpec ALIGN) (hs : NodeOk s.bdata) {c : BootCall} (hc : c.Passes) :
    ∃ t, bootStep ALIGN s c = some t ∧ NodeOk t.bdata := by
  cases c with
  | alloc size align goal =>
    have ⟨hsize, hsize', halign⟩ := hc
    simp only [bootStep]
    rcases allocBootmemCore_cases goal hA hs.toZeroNode hs.toTailOk hsize hsize' halign with
      hnull | ⟨start, -, hv, hfound⟩
    · rw [hnull]
      exact ⟨s, rfl, hs⟩
    · rw [hfound]
      exact ⟨_, rfl, nodeOk_allocEffect hs halign hsize hv⟩
  | free addr size => exact ⟨_, rfl, nodeOk_freeBootmem hs addr size⟩
  | reserve addr size =>
    refine ⟨_, rfl, ?_⟩
    rw [reserveBootmem_bdata]
    exact hs

end

-- A scan that settles on a page decides the step.
theorem bootStep_alloc_of_found {ALIGN : Word → Word → Word} {s : BootState}
    {size align goal start : Word} (hA : AlignSpec ALIGN) (hs : NodeOk s.bdata)
    (h : Admissible size align) (hfound : findStart ALIGN s size align goal = .found start) :
    bootStep ALIGN s (.alloc size align goal) = some (allocEffect s size align start) := by
  simp only [bootStep]
  rw [allocBootmemCore_of_found hA hs.toZeroNode hs.toTailOk h.size_pos h.size_le
    (Or.inl h.align_pow) hfound]
  rfl

/-! ## After `init_bootmem` -/

/-- The hints of the globals as `.bss` has them. -/
structure FreshHints (b : BootmemData) : Prop where
  lastOffset : b.lastOffset = 0#32
  lastPos : b.lastPos = 0#32
  lastSuccess : b.lastSuccess = 0#32

theorem nodeOk_initBootmem {start page : Word} {s : BootState} (hpage : page.toNat ≤ 2 ^ 18)
    (hs : FreshHints s.bdata) : NodeOk (initBootmem start page s).2.bdata := by
  rw [bdata_initBootmem]
  have hoff := hs.lastOffset
  refine ⟨⟨rfl, hpage⟩, ⟨?_, fun h ↦ absurd hoff h⟩, ?_⟩
  · dsimp only
    rw [hoff]
    decide
  · dsimp only
    rw [hs.lastSuccess]
    decide

theorem freshHints_bootImage (mem : BitMemory) : FreshHints (bootImage mem).bdata := ⟨rfl, rfl, rfl⟩

/-- Calls in any order all return, and leave the hints in order. -/
theorem nodeOk_of_calls {ALIGN : Word → Word → Word} {page : Word} {s : BootState} (start : Word)
    (hA : AlignSpec ALIGN) (hpage : page.toNat ≤ 2 ^ 18) (hs : FreshHints s.bdata)
    {calls : List BootCall} (hcalls : ∀ c ∈ calls, c.Passes) :
    ∃ t, calls.foldlM (bootStep ALIGN) (initBootmem start page s).2 = some t ∧ NodeOk t.bdata :=
  Transition.exists_foldlM (fun c hc _ ht ↦ ht.step hA (hcalls c hc))
    (nodeOk_initBootmem hpage hs)

end AphroditeOs
