import AphroditeOs.Bootmem.Area
import AphroditeOs.Bootmem.FirstFit

/-!
# Nodes that begin anywhere

`init_bootmem` sets up a node from page 0 on, but `init_bootmem_core` takes any first page, and
`__alloc_bootmem_core` moves the start of its scans by an offset for nodes whose base is aligned
less than the request.  The scans align page indices of the node, not addresses.
-/

namespace AphroditeOs

/-- A pointer that the call returns, if it is not `NULL`, is aligned in physical memory. -/
def ReturnsAligned (ALIGN : Word → Word → Word) (s : BootState) (size align goal : Word) : Prop :=
  ∀ ret t, allocBootmemCore ALIGN size align goal s = .ok (some ret, t) → ret ≠ 0#32 →
    align.toNat ∣ (pa ret).toNat

section

variable {ALIGN : Word → Word → Word} {s : BootState} {size align goal start : Word} {p : Nat}

/-! ## The node after `init_bootmem_core` -/

theorem toNat_pageAddr (b : BootmemData) (start : Word) :
    (start * pageSize + b.nodeBootStart).toNat =
      (start.toNat * 4096 + b.nodeBootStart.toNat) % 2 ^ 32 := by
  rw [BitVec.toNat_add, BitVec.toNat_mul, toNat_pageSize, Nat.mod_add_mod]

theorem isPowerOfTwo_dvd_word {n : Nat} (hn : n.isPowerOfTwo) (hlt : n < 2 ^ 32) : n ∣ 2 ^ 32 := by
  have ⟨k, hk⟩ := hn
  rw [hk] at hlt ⊢
  exact Nat.pow_dvd_pow 2 ((Nat.pow_lt_pow_iff_right (by decide)).mp hlt).le

theorem dvd_toNat_add {n : Nat} (hn : n ∣ 2 ^ 32) {x y : Word} (hx : n ∣ x.toNat)
    (hy : n ∣ y.toNat) : n ∣ (x + y).toNat := by
  rw [BitVec.toNat_add, Nat.dvd_mod_iff hn]
  exact Nat.dvd_add hx hy

theorem dvd_toNat_mul_pageSize {n : Nat} (hn : n ∣ 2 ^ 32) {x : Word} (hx : n ∣ x.toNat * 4096) :
    n ∣ (x * pageSize).toNat := by
  rw [BitVec.toNat_mul, toNat_pageSize, Nat.dvd_mod_iff hn]
  exact hx

/-- The pointer for a scan that settled on page index `start`. -/
def areaPtr (b : BootmemData) (align start : Word) : Word :=
  if align < pageSize ∧ b.lastOffset ≠ 0#32 ∧ b.lastPos + 1#32 = start then
    va (b.lastPos * pageSize + ((b.lastOffset + align - 1#32) &&& ~~~(align - 1#32)) +
      b.nodeBootStart)
  else va (start * pageSize + b.nodeBootStart)

/-- What a placed area is, with all that the three ways to place it have in common. -/
theorem placeArea_ok {b b' : BootmemData} {ret count : Word}
    (h : placeArea b size align start = .ok (ret, count, b')) :
    ret = areaPtr b align start ∧ b'.lastSuccess = start <<< pageShift ∧
      (count = 0#32 ∨ ∃ tail ≤ size, count = areaPages (size - tail)) := by
  unfold areaPtr
  by_cases hmerge : align < pageSize ∧ b.lastOffset ≠ 0#32 ∧ b.lastPos + 1#32 = start
  · rw [placeArea, if_pos hmerge] at h
    rw [if_pos hmerge]
    dsimp only at h
    generalize (b.lastOffset + align - 1#32) &&& ~~~(align - 1#32) = offset at h ⊢
    by_cases hbug : pageSize < offset
    · rw [if_pos hbug] at h
      contradiction
    rw [if_neg hbug] at h
    by_cases htail : size < pageSize - offset
    · rw [if_pos htail] at h
      have hok := Prod.mk.inj (Except.ok.inj h)
      have hrest := Prod.mk.inj hok.2
      rw [← hok.1, ← hrest.2]
      exact ⟨rfl, rfl, Or.inl hrest.1.symm⟩
    · rw [if_neg htail] at h
      have hok := Prod.mk.inj (Except.ok.inj h)
      have hrest := Prod.mk.inj hok.2
      rw [← hok.1, ← hrest.2]
      exact ⟨rfl, rfl, Or.inr ⟨pageSize - offset, BitVec.not_lt.mp htail, hrest.1.symm⟩⟩
  · rw [placeArea, if_neg hmerge] at h
    rw [if_neg hmerge]
    have hok := Prod.mk.inj (Except.ok.inj h)
    have hrest := Prod.mk.inj hok.2
    rw [← hok.1, ← hrest.2, ← hrest.1]
    refine ⟨rfl, rfl, Or.inr ⟨0#32, Nat.zero_le _, ?_⟩⟩
    rw [BitVec.sub_zero]

-- On a node whose base is aligned every area is, whatever the hints are.
theorem areaPtr_aligned {b : BootmemData} (halign : align.toNat.isPowerOfTwo)
    (hboot : align.toNat ∣ b.nodeBootStart.toNat)
    (hstart : max (align.toNat / 4096) 1 ∣ start.toNat) :
    align.toNat ∣ (pa (areaPtr b align start)).toNat := by
  have hword := isPowerOfTwo_dvd_word halign align.isLt
  unfold areaPtr
  split
  next hmerge =>
    -- a merged area begins at a multiple of the alignment in its page
    have hlt := hmerge.1
    rw [BitVec.lt_def, toNat_pageSize] at hlt
    have hpage := dvd_page_of_lt halign hlt
    rw [pa_va]
    apply dvd_toNat_add hword _ hboot
    apply dvd_toNat_add hword
    · exact dvd_toNat_mul_pageSize hword (Dvd.dvd.mul_left hpage _)
    · rw [Align.toNat_and_not_sub_one _ halign]
      exact Nat.dvd_mul_left _ _
  next =>
    rw [pa_va]
    exact dvd_toNat_add hword (dvd_toNat_mul_pageSize hword (dvd_of_stride_dvd halign hstart)) hboot

-- What a call does after `found` begins with the placement.
theorem placeArea_of_takeArea {ret : Word} {t : BootState}
    (h : takeArea size align start s = .ok (ret, t)) :
    ∃ count, placeArea s.bdata size align start = .ok (ret, count, t.bdata) := by
  unfold takeArea at h
  cases hplace : placeArea s.bdata size align start with
  | error fault =>
    rw [hplace] at h
    cases h
  | ok placed =>
    have ⟨ret', count, b⟩ := placed
    rw [hplace] at h
    change (reserveRun s.mem b.map ((start + count).toNat - start.toNat) start.toNat >>= _) = _ at h
    cases hmem : reserveRun s.mem b.map ((start + count).toNat - start.toNat) start.toNat with
    | error fault =>
      rw [hmem] at h
      cases h
    | ok mem =>
      rw [hmem] at h
      cases h
      exact ⟨count, rfl⟩

theorem takeArea_of_call {ret : Word} {t : BootState} {goal : Word}
    (hcall : allocBootmemCore ALIGN size align goal s =
      (takeArea size align start s).map fun r ↦ (some r.1, r.2))
    (h : allocBootmemCore ALIGN size align goal s = .ok (some ret, t)) :
    takeArea size align start s = .ok (ret, t) := by
  rw [hcall] at h
  cases htake : takeArea size align start s with
  | error fault =>
    rw [htake] at h
    cases h
  | ok r =>
    rw [htake] at h
    cases h
    rfl

-- A fresh area begins with its page, and the call goes through.
theorem takeArea_of_page_lt (hpages : (nodePages s.bdata).toNat < 2 ^ 31)
    (hsize : size.toNat ≤ 2 ^ 32 - 4096) (hlt : 4096 < align.toNat)
    (hv : StrideScan.Viable s.busy (nodePages s.bdata).toNat (max (align.toNat / 4096) 1)
      ((size.toNat + 4095) / 4096) start.toNat) :
    ∃ t, takeArea size align start s =
      .ok (va (start * pageSize + s.bdata.nodeBootStart), t) := by
  have hfresh : ¬ (align < pageSize ∧ s.bdata.lastOffset ≠ 0#32 ∧
      s.bdata.lastPos + 1#32 = start) := by
    intro hmerge
    have := hmerge.1
    rw [BitVec.lt_def, toNat_pageSize] at this
    omega
  have harea := toNat_areaPages hsize
  have hfit := hv.2.1
  have hcount : (start + areaPages size).toNat - start.toNat = (areaPages size).toNat := by
    rw [BitVec.toNat_add_of_lt (by omega), Nat.add_sub_cancel_left]
  have hreserve := reserveRun_eq s.mem s.bdata.map (areaPages size).toNat start.toNat
    (fun p hlo hhi ↦ hv.2.2 p hlo (by rwa [harea] at hhi))
  unfold takeArea
  rw [placeArea, if_neg hfresh]
  change ∃ t, (reserveRun s.mem s.bdata.map ((start + areaPages size).toNat - start.toNat)
    start.toNat >>= _) = Except.ok (_, t)
  rw [hcount, hreserve]
  exact ⟨_, rfl⟩

-- The addresses of the node's pages are as far from aligned as its base.
theorem not_dvd_pageAddr {n : Nat} {b : BootmemData} (hn : n.isPowerOfTwo) (hlt : n < 2 ^ 32)
    (hboot : ¬ n ∣ b.nodeBootStart.toNat) (hstart : max (n / 4096) 1 ∣ start.toNat) :
    ¬ n ∣ (start * pageSize + b.nodeBootStart).toNat := by
  rw [toNat_pageAddr, Nat.dvd_mod_iff (isPowerOfTwo_dvd_word hn hlt)]
  exact fun h ↦ hboot ((Nat.dvd_add_right (dvd_of_stride_dvd hn hstart)).mp h)

-- Of all pages only the one at 1 GB has the kernel address 0.
theorem va_pageAddr_eq_zero_iff (b : BootmemData) (start : Word) :
    va (start * pageSize + b.nodeBootStart) = 0#32 ↔
      (start.toNat * 4096 + b.nodeBootStart.toNat) % 2 ^ 32 = 2 ^ 30 := by
  rw [← toNat_pageAddr]
  generalize start * pageSize + b.nodeBootStart = x
  unfold va pageOffset
  bv_omega

end

/-- **Alignment.**  On a node that begins at any page, the pointer of a call is aligned in physical
memory exactly when the base of the node is, or the scans find no page, or one whose kernel address
is `NULL`. -/
theorem returnsAligned_iff {ALIGN : Word → Word → Word} {s : BootState} {size align goal : Word}
    (hA : AlignSpec ALIGN) (hboot : 4096 ∣ s.bdata.nodeBootStart.toNat)
    (hpages : (nodePages s.bdata).toNat < 2 ^ 31) (h : Admissible size align) :
    ReturnsAligned ALIGN s size align goal ↔
      align.toNat ∣ s.bdata.nodeBootStart.toNat ∨
        ∀ p, SettlesAt s size align goal p →
          (p * 4096 + s.bdata.nodeBootStart.toNat) % 2 ^ 32 = 2 ^ 30 := by
  have halign := h.align_pow
  have hcall := @allocBootmemCore_eq ALIGN s size align goal h.size_pos (Or.inl halign)
  unfold ReturnsAligned
  rcases findStart_settlesAt hA hpages h goal with ⟨hr, hnone⟩ | ⟨start, hr, hstart⟩
  · -- a call that returns `NULL`
    rw [hr] at hcall
    rw [hcall]
    apply iff_of_true
    · intro ret t hret
      cases hret
    · exact Or.inr fun p hp ↦ absurd hp (hnone p)
  have hdvd := hstart.viable.1
  rw [hr] at hcall
  change allocBootmemCore ALIGN size align goal s =
    (takeArea size align start s).map fun r ↦ (some r.1, r.2) at hcall
  by_cases hbase : align.toNat ∣ s.bdata.nodeBootStart.toNat
  · apply iff_of_true _ (Or.inl hbase)
    intro ret t hret _
    have ⟨count, hplace⟩ := placeArea_of_takeArea (takeArea_of_call hcall hret)
    rw [(placeArea_ok hplace).1]
    exact areaPtr_aligned halign hbase hdvd
  · have hlt : 4096 < align.toNat := by
      rcases dvd_page_or_page_dvd halign with hpage | hgt
      · exact absurd (hpage.1.trans hboot) hbase
      · exact hgt.2
    have ⟨t, htake⟩ := takeArea_of_page_lt hpages h.size_le hlt hstart.viable
    have hmis := not_dvd_pageAddr halign align.isLt hbase hdvd
    rw [htake] at hcall
    rw [or_iff_right hbase]
    constructor
    · intro hret p hp
      rw [hp.eq hstart, ← va_pageAddr_eq_zero_iff]
      by_contra hne
      have haligned := hret _ t hcall hne
      rw [pa_va] at haligned
      exact hmis haligned
    · intro hnull ret t' hret hne
      rw [hcall] at hret
      have hptr := Option.some.inj (Prod.mk.inj (Except.ok.inj hret)).1
      rw [← hptr] at hne
      exact absurd ((va_pageAddr_eq_zero_iff _ _).mpr (hnull _ hstart)) hne

/-- Eight free pages from page 1 on. -/
def oddNode : BootState :=
  freeBootmem (pfnPhys 1#32) (pfnPhys 8#32)
    (initBootmemCore .contigPageData 100#32 1#32 9#32 (bootImage fun _ ↦ false)).2

theorem oddNode_page_aligned : ReturnsAligned alignMask oddNode pageSize pageSize 0#32 := by
  have hreq : Admissible pageSize pageSize := ⟨by decide, by decide, ⟨12, rfl⟩⟩
  exact (returnsAligned_iff alignMask_spec (by decide) (by decide +kernel) hreq).mpr
    (Or.inl (by decide))

/-- A request aligned to two pages is given page index 2, which is page 3 of memory. -/
theorem oddNode_not_aligned : ¬ ReturnsAligned alignMask oddNode pageSize (pfnPhys 2#32) 0#32 := by
  intro h
  have hptr : (allocBootmemCore alignMask pageSize (pfnPhys 2#32) 0#32 oddNode).toOption.map
      Prod.fst = some (some (va (pfnPhys 3#32))) := by decide +kernel
  cases hcall : allocBootmemCore alignMask pageSize (pfnPhys 2#32) 0#32 oddNode with
  | error fault =>
    rw [hcall] at hptr
    cases hptr
  | ok r =>
    rw [hcall] at hptr
    have hfst : r.1 = some (va (pfnPhys 3#32)) := Option.some.inj hptr
    have haligned := h (va (pfnPhys 3#32)) r.2 (by rw [hcall, ← hfst]) (by decide)
    revert haligned
    decide

end AphroditeOs
