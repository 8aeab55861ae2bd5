import AphroditeOs.Bootmem.Soundness

/-!
# What the regions hold

Runs in which the owners of the live regions write into them.  Such a run is for a store in which
each region has bytes of its own; the one memory, which the bitmap is in too, refines that store.
-/

namespace AphroditeOs

/-- A run, and what the owner of each live region has put into it. -/
structure TenantRun where
  run : BootRun
  data : Region → Nat → BitVec 8

def BootRun.write (x : BootRun) (addr : Nat) (v : BitVec 8) : BootRun :=
  { x with state := { x.state with mem := x.state.mem.fill addr v 1 } }

inductive TenantStep (ALIGN : Word → Word → Word) (x : TenantRun) : TenantRun → Prop
  | null {size align goal : Word} {s' : BootState} : Admissible size align →
      allocBootmemCore ALIGN size align goal x.run.state = .ok (none, s') →
      TenantStep ALIGN x { x with run := ⟨s', x.run.live⟩ }
  | alloc {size align goal ret : Word} {s' : BootState} : Admissible size align →
      allocBootmemCore ALIGN size align goal x.run.state = .ok (some ret, s') →
      TenantStep ALIGN x ⟨⟨s', ⟨pa ret, size, align⟩ :: x.run.live⟩,
        Function.update x.data ⟨pa ret, size, align⟩ fun _ ↦ 0#8⟩
  | free {r : Region} : r ∈ x.run.live →
      TenantStep ALIGN x
        { x with run := ⟨freeBootmem r.addr r.size x.run.state, x.run.live.erase r⟩ }
  | write {r : Region} {k : Nat} (v : BitVec 8) : r ∈ x.run.live → k < r.size.toNat →
      TenantStep ALIGN x ⟨x.run.write (r.addr.toNat + k) v,
        Function.update x.data r (Function.update (x.data r) k v)⟩

def tenantRuns (ALIGN : Word → Word → Word) (s : BootState) : Transition.System TenantRun where
  Init x := x.run = ⟨s, []⟩
  Step := TenantStep ALIGN

/-- Byte `a` keeps bits of pages of the node. -/
def BitmapByte (b : BootmemData) (a : Nat) : Prop := ∃ q < b.nodeLowPfn.toNat, b.map + q / 8 = a

/-- The memory is the store that the owners see, and what they were never given is as before. -/
structure TenantSound (s : BootState) (x : TenantRun) : Prop where
  live : LiveSound s x.run
  data : ∀ r ∈ x.run.live, ∀ k < r.size.toNat,
    x.run.state.mem.byte (r.addr.toNat + k) = x.data r k
  frame : ∀ a, a / 4096 ∉ nodeFree s → ¬BitmapByte s.bdata a →
    x.run.state.mem.byte a = s.mem.byte a

/-! ## What a call leaves alone -/

theorem setRun_of_ne {mem : BitMemory} {addr count i n : Nat}
    (h : ∀ p, i ≤ p → p < i + count → n ≠ 8 * addr + p) : setRun mem addr count i n = mem n := by
  induction count generalizing mem i with
  | zero => rfl
  | succ count ih =>
    rw [setRun, ih fun p hlo hhi ↦ h p (by omega) (by omega)]
    exact Function.update_of_ne (h i le_rfl (by omega)) _ _

theorem clearRun_of_ne {mem : BitMemory} {addr count i n : Nat}
    (h : ∀ p, i ≤ p → p < i + count → n ≠ 8 * addr + p) : clearRun mem addr count i n = mem n := by
  induction count generalizing mem i with
  | zero => rfl
  | succ count ih =>
    have hbit : (testAndClearBit mem addr i).2 n = mem n :=
      Function.update_of_ne (h i le_rfl (by omega)) _ _
    rw [clearRun]
    split
    · rw [ih fun p hlo hhi ↦ h p (by omega) (by omega), hbit]
    · exact hbit

section

variable {s : BootState} {size align start : Word} {a : Nat}

theorem byte_allocEffect (hnode : ZeroNode s.bdata) (htail : TailOk s.bdata)
    (halign : AlignOk align) (hv : ViableStart s size align start.toNat)
    (ha : ¬BitmapByte s.bdata a) :
    (allocEffect s size align start).mem.byte a =
      if regionAddr s.bdata align start ≤ a ∧ a < regionEnd s.bdata size align start then 0#8
      else s.mem.byte a := by
  have hle := pagesBelow_regionEnd_le size start hnode htail halign
  have hfit := hv.2.1
  unfold allocEffect
  dsimp only
  rw [BitMemory.byte_fill]
  apply if_congr Iff.rfl rfl
  apply BitMemory.byte_congr
  intro j hj
  apply setRun_of_ne
  intro p hlo hhi heq
  exact ha ⟨p, by omega, by omega⟩

theorem byte_freeBootmem {addr : Word} (hboot : s.bdata.nodeBootStart = 0#32)
    (hwrap : addr.toNat + size.toNat + 4096 ≤ 2 ^ 32)
    (hin : addr.toNat + size.toNat ≤ s.bdata.nodeLowPfn.toNat * 4096)
    (ha : ¬BitmapByte s.bdata a) : (freeBootmem addr size s).mem.byte a = s.mem.byte a := by
  have hend : ((addr + size - s.bdata.nodeBootStart) / pageSize).toNat =
      (addr.toNat + size.toNat) / 4096 := by
    rw [hboot, BitVec.sub_zero, toNat_div_pageSize, BitVec.toNat_add, Nat.mod_eq_of_lt (by omega)]
  have hmap : (if addr < s.bdata.lastSuccess then
      { s.bdata with lastSuccess := addr } else s.bdata).map = s.bdata.map := by
    split
    · rfl
    · rfl
  apply BitMemory.byte_congr
  intro j hj
  unfold freeBootmem freeBootmemCore
  dsimp only
  split
  · rfl
  · rw [hmap]
    apply clearRun_of_ne
    intro p hlo hhi heq
    rw [hend] at hhi
    exact ha ⟨p, by omega, by omega⟩

end

/-! ## One step -/

structure TenantInv (s : BootState) (x : TenantRun) : Prop where
  tied : Tied s x.run
  data : ∀ r ∈ x.run.live, ∀ k < r.size.toNat,
    x.run.state.mem.byte (r.addr.toNat + k) = x.data r k
  frame : ∀ a, a / 4096 ∉ nodeFree s → ¬BitmapByte s.bdata a →
    x.run.state.mem.byte a = s.mem.byte a

section

variable {s : BootState} {x : BootRun} {r : Region} {k : Nat}

theorem Region.mem_bytes (hk : k < r.size.toNat) : r.addr.toNat + k ∈ r.bytes := by
  rw [Region.bytes, Range.mem_iff]
  dsimp only
  omega

theorem Tied.bitmapByte_iff (hx : Tied s x) {a : Nat} :
    BitmapByte x.state.bdata a ↔ BitmapByte s.bdata a := by
  unfold BitmapByte
  rw [hx.map_eq, hx.nodeLowPfn_eq]

theorem Tied.page_of_live (hx : Tied s x) (hr : r ∈ x.live) (hk : k < r.size.toNat) :
    (r.addr.toNat + k) / 4096 ∈ nodeFree s :=
  hx.touches r hr _ ⟨_, Region.mem_bytes hk, rfl⟩

-- A region is in pages that were free, and the bitmap is not.
theorem Tied.not_bitmapByte (hx : Tied s x) (hmap : ∀ p ∈ nodeFree s, ¬HoldsBitmap s.bdata p)
    (hr : r ∈ x.live) (hk : k < r.size.toNat) : ¬BitmapByte s.bdata (r.addr.toNat + k) := by
  rintro ⟨q, hq, hbyte⟩
  exact hmap _ (hx.page_of_live hr hk) ⟨q, hq, congrArg (· / 4096) hbyte⟩

/-- A write by an owner does not reach the bitmap. -/
theorem Tied.busy_write (hx : Tied s x) (hmap : ∀ p ∈ nodeFree s, ¬HoldsBitmap s.bdata p)
    (hr : r ∈ x.live) (hk : k < r.size.toNat) (v : BitVec 8) {p : Nat}
    (hp : p < s.bdata.nodeLowPfn.toNat) :
    (x.write (r.addr.toNat + k) v).state.busy p = x.state.busy p := by
  refine BitMemory.fill_outside ?_
  by_contra hin
  refine hx.not_bitmapByte hmap hr hk ⟨p, hp, ?_⟩
  rw [← hx.map_eq]
  show x.state.bdata.map + p / 8 = _
  change ¬(8 * x.state.bdata.map + p < _ ∨ _ ≤ 8 * x.state.bdata.map + p) at hin
  omega

theorem Tied.write (hx : Tied s x) (hmap : ∀ p ∈ nodeFree s, ¬HoldsBitmap s.bdata p)
    (hr : r ∈ x.live) (hk : k < r.size.toNat) (v : BitVec 8) :
    Tied s (x.write (r.addr.toNat + k) v) := by
  have hbusy := fun {p} ↦ hx.busy_write hmap hr hk v (p := p)
  have hnode := hx.nodeLowPfn_eq
  refine ⟨⟨⟨hx.confined.node, hx.confined.tail, fun p hp hfree ↦ ?_, hx.confined.last⟩,
    hx.map_eq, hnode, hx.touches⟩, ⟨hx.sound.disjoint, hx.sound.inside, hx.sound.aligned, ?_⟩,
    hx.size_pos, fun hoff ↦ ?_, hx.tail_open⟩
  · have hp' : p < s.bdata.nodeLowPfn.toNat := hnode ▸ hp
    rw [hbusy hp'] at hfree
    exact hx.confined.free p hp hfree
  · intro r' hr' p hp
    rw [hbusy (hx.touches r' hr' p hp).1]
    exact hx.sound.pages r' hr' p hp
  · have hlast : x.state.bdata.lastPos.toNat < s.bdata.nodeLowPfn.toNat :=
      hnode ▸ hx.confined.tail.lastPos_lt hoff
    exact (hbusy hlast).trans (hx.last_busy hoff)

-- Two live regions that share a byte are one.
theorem Tied.eq_of_byte (hx : Tied s x) {r' : Region} (hr : r ∈ x.live) (hr' : r' ∈ x.live)
    {a : Nat} (ha : a ∈ r.bytes) (ha' : a ∈ r'.bytes) : r' = r := by
  by_contra hne
  exact hx.disjoint_erase hr r' ((List.mem_erase_of_ne hne).mpr hr') a ha ha'

end

section

variable {ALIGN : Word → Word → Word} {s : BootState} {x y : TenantRun}

theorem TenantInv.write (hx : TenantInv s x) (hmap : ∀ p ∈ nodeFree s, ¬HoldsBitmap s.bdata p)
    {r : Region} {k : Nat} (hr : r ∈ x.run.live) (hk : k < r.size.toNat) (v : BitVec 8) :
    TenantInv s ⟨x.run.write (r.addr.toNat + k) v,
      Function.update x.data r (Function.update (x.data r) k v)⟩ := by
  refine ⟨hx.tied.write hmap hr hk v, ?_, ?_⟩
  · intro r' hr' k' hk'
    change (x.run.state.mem.fill _ v 1).byte _ = Function.update x.data r _ r' k'
    rw [BitMemory.byte_fill]
    by_cases hsame : r' = r
    · subst hsame
      rw [Function.update_self]
      by_cases hkk : k' = k
      · rw [hkk, if_pos (by omega), Function.update_self]
      · rw [if_neg (by omega), Function.update_of_ne hkk]
        exact hx.data r' hr' k' hk'
    · -- the byte is in `r`, so it is not in another region
      rw [Function.update_of_ne hsame, if_neg fun hin ↦ hsame ?_]
      · exact hx.data r' hr' k' hk'
      · apply hx.tied.eq_of_byte hr hr' (Region.mem_bytes hk)
        rw [show r.addr.toNat + k = r'.addr.toNat + k' by omega]
        exact Region.mem_bytes hk'
  · intro a ha hbit
    change (x.run.state.mem.fill _ v 1).byte a = _
    have hpage := hx.tied.page_of_live hr hk
    rw [BitMemory.byte_fill, if_neg fun hin ↦ ha ?_]
    · exact hx.frame a ha hbit
    · rwa [show a = r.addr.toNat + k by omega]

theorem TenantInv.free (hx : TenantInv s x) (hmap : ∀ p ∈ nodeFree s, ¬HoldsBitmap s.bdata p)
    {r : Region} (hr : r ∈ x.run.live) : TenantInv s
      { x with run := ⟨freeBootmem r.addr r.size x.run.state, x.run.live.erase r⟩ } := by
  have hlow := hx.tied.confined.node.toNat_nodeLowPfn_le
  have hin := hx.tied.sound.inside r hr
  rw [← hx.tied.nodeLowPfn_eq] at hin
  have hbyte : ∀ a, ¬BitmapByte s.bdata a →
      (freeBootmem r.addr r.size x.run.state).mem.byte a = x.run.state.mem.byte a := by
    intro a ha
    exact byte_freeBootmem hx.tied.confined.node.nodeBootStart (by omega) hin
      (hx.tied.bitmapByte_iff.not.mpr ha)
  refine ⟨hx.tied.free hr, ?_, ?_⟩
  · intro r' hr' k hk
    have hlive := List.mem_of_mem_erase hr'
    dsimp only
    rw [hbyte _ (hx.tied.not_bitmapByte hmap hlive hk)]
    exact hx.data r' hlive k hk
  · intro a ha hbit
    dsimp only
    rw [hbyte a hbit]
    exact hx.frame a ha hbit

theorem TenantInv.alloc (hA : AlignSpec ALIGN) (hx : TenantInv s x)
    (hmap : ∀ p ∈ nodeFree s, ¬HoldsBitmap s.bdata p) {size align goal ret : Word} {s' : BootState}
    (hreq : Admissible size align)
    (h : allocBootmemCore ALIGN size align goal x.run.state = .ok (some ret, s')) :
    TenantInv s ⟨⟨s', ⟨pa ret, size, align⟩ :: x.run.live⟩,
      Function.update x.data ⟨pa ret, size, align⟩ fun _ ↦ 0#8⟩ := by
  have halign : AlignOk align := Or.inl hreq.align_pow
  have hzero := hx.tied.confined.zeroNode
  have htail := hx.tied.confined.tail
  rcases allocBootmemCore_cases goal hA hzero htail hreq.size_pos hreq.size_le halign with
    hnull | ⟨start, -, hv, hfound⟩
  · rw [hnull] at h
    cases h
  rw [hfound] at h
  obtain ⟨hret, rfl⟩ := Prod.mk.inj (Except.ok.inj h)
  obtain rfl := Option.some.inj hret
  rw [pa_va]
  change TenantInv s ⟨⟨allocEffect x.run.state size align start,
    newRegion x.run.state.bdata size align start :: x.run.live⟩,
    Function.update x.data (newRegion x.run.state.bdata size align start) fun _ ↦ 0#8⟩
  have htied := hx.tied.alloc hmap hreq hv
  have hmem := fun {a} ↦ mem_bytes_newRegion (a := a) hzero htail halign hv.2.1
  have hbyte := fun {a} (ha : ¬BitmapByte s.bdata a) ↦
    byte_allocEffect hzero htail halign hv (hx.tied.bitmapByte_iff.not.mpr ha)
  refine ⟨htied, ?_, ?_⟩
  · intro r hr k hk
    have hnot := htied.not_bitmapByte hmap hr hk
    change (allocEffect x.run.state size align start).mem.byte _ =
      Function.update x.data (newRegion x.run.state.bdata size align start) _ r k
    rw [hbyte hnot]
    by_cases hnew : r = newRegion x.run.state.bdata size align start
    · rw [if_pos (hmem.mp (hnew ▸ Region.mem_bytes hk)), hnew, Function.update_self]
    · have hlive : r ∈ x.run.live := (List.mem_cons.mp hr).resolve_left hnew
      rw [Function.update_of_ne hnew, if_neg fun hin ↦ hnew ?_]
      · exact hx.data r hlive k hk
      · exact htied.eq_of_byte List.mem_cons_self hr (hmem.mpr hin) (Region.mem_bytes hk)
  · intro a ha hbit
    change (allocEffect x.run.state size align start).mem.byte a = _
    rw [hbyte hbit, if_neg fun hin ↦ ha (hx.tied.confined.region hv halign a hin.1 hin.2)]
    exact hx.frame a ha hbit

theorem TenantInv.step (hA : AlignSpec ALIGN) (hx : TenantInv s x)
    (hmap : ∀ p ∈ nodeFree s, ¬HoldsBitmap s.bdata p) (h : TenantStep ALIGN x y) :
    TenantInv s y := by
  cases h with
  | null hreq hcall =>
    rcases allocBootmemCore_cases _ hA hx.tied.confined.zeroNode hx.tied.confined.tail hreq.size_pos
      hreq.size_le (Or.inl hreq.align_pow) with hnull | ⟨start, -, -, hfound⟩
    · rw [hnull] at hcall
      cases hcall
      exact hx
    · rw [hfound] at hcall
      cases hcall
  | alloc hreq hcall => exact hx.alloc hA hmap hreq hcall
  | free hr => exact hx.free hmap hr
  | write v hr hk => exact hx.write hmap hr hk v

theorem tenantInv_of_reachable (hA : AlignSpec ALIGN) (hs : Shaped s)
    (hmap : ∀ p ∈ nodeFree s, ¬HoldsBitmap s.bdata p)
    (hx : Transition.Reachable (tenantRuns ALIGN s) x) : TenantInv s x := by
  have hinv : Transition.Invariant (tenantRuns ALIGN s) (TenantInv s) := by
    constructor
    · intro x hx
      obtain ⟨run, data⟩ := x
      obtain rfl : run = ⟨s, []⟩ := hx
      exact ⟨tied_init hs, fun r hr ↦ absurd hr List.not_mem_nil, fun _ _ _ ↦ rfl⟩
    · intro x y hx h
      exact hx.step hA hmap h
  exact hinv.of_reachable hx

/-- **Every region keeps what its owner has put into it**, through the calls and the writes of all
others, and nothing else than the bitmap and the pages given away is ever changed. -/
theorem tenantSound_of_reachable (hA : AlignSpec ALIGN) (hs : Shaped s)
    (hmap : ∀ p ∈ nodeFree s, ¬HoldsBitmap s.bdata p)
    (hx : Transition.Reachable (tenantRuns ALIGN s) x) : TenantSound s x := by
  have hinv := tenantInv_of_reachable hA hs hmap hx
  exact ⟨hinv.tied.sound, hinv.data, hinv.frame⟩

end

/-- One region, into which its owner has written a byte. -/
theorem tenantSound_openNode :
    ∃ x, x.run.live.length = 1 ∧ (∃ r ∈ x.run.live, x.data r 5 = 7#8) ∧
      TenantSound (openNode 100#32 8#32) x := by
  have hscan : findStart alignMask (openNode 100#32 8#32) 16#32 1#32 0#32 = .found 0#32 := by
    decide +kernel
  have hreq : Admissible 16#32 1#32 := ⟨by decide, by decide, Nat.isPowerOfTwo_one⟩
  have halign : AlignOk 1#32 := Or.inl Nat.isPowerOfTwo_one
  have hcall := allocBootmemCore_of_found alignMask_spec ⟨by decide, by decide⟩
    ⟨by decide, by decide⟩ (by decide) (by decide) halign hscan
  let first : TenantRun := ⟨⟨openNode 100#32 8#32, []⟩, fun _ _ ↦ 0#8⟩
  have hfirst : Transition.Reachable (tenantRuns alignMask (openNode 100#32 8#32)) first :=
    .init (show first.run = ⟨_, []⟩ from rfl)
  let r : Region := ⟨pa (va (BitVec.ofNat 32 (regionAddr first.run.state.bdata 1#32 0#32))),
    16#32, 1#32⟩
  let second : TenantRun := ⟨⟨allocEffect first.run.state 16#32 1#32 0#32, [r]⟩,
    Function.update first.data r fun _ ↦ 0#8⟩
  have hsecond : TenantStep alignMask first second := .alloc hreq hcall
  have hthird : TenantStep alignMask second _ :=
    .write (r := r) (k := 5) 7#8 List.mem_cons_self (by decide)
  refine ⟨_, rfl, ⟨r, List.mem_cons_self, ?_⟩, tenantSound_of_reachable alignMask_spec
    (shaped_openNode (by decide)) openNode_not_holdsBitmap ((hfirst.step hsecond).step hthird)⟩
  dsimp only
  rw [Function.update_self, Function.update_self]

end AphroditeOs
