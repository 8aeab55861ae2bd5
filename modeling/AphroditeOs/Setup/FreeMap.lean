import AphroditeOs.Setup.Arch

/-!
# The free map and the memory map

Which pages `setup_arch` frees, compared with the RAM entries of the e820 map: for entries that do
not overlap, and for entries listed in another order.
-/

namespace AphroditeOs

/-- The bytes of an entry, as numbers that do not wrap. -/
def E820Entry.bytes (e : E820Entry) : Range := ⟨e.addr.toNat, e.addr.toNat + e.size.toNat⟩

/-- Page `p` lies wholly inside the RAM entry `e`. -/
def E820Entry.HoldsPage (e : E820Entry) (p : Nat) : Prop :=
  e.type = e820Ram ∧ e.bytes.start ≤ p * 4096 ∧ (p + 1) * 4096 ≤ e.bytes.stop

/-- The RAM entries do not overlap and end below `2 ^ 44`. -/
structure DisjointRam (e820 : E820Map) : Prop where
  disjoint : e820.map.Pairwise fun e f ↦
    e.type = e820Ram → f.type = e820Ram → ∀ a, a ∈ e.bytes → a ∉ f.bytes
  stop_lt : ∀ e ∈ e820.map, e.type = e820Ram → e.bytes.stop < 2 ^ 44

/-- The largest `PFN_DOWN` of an end of a RAM entry with a whole page in it, 0 for none. -/
noncomputable def topFrame (e820 : E820Map) : Nat :=
  sSup {n | ∃ e ∈ e820.map, (∃ p, e.HoldsPage p) ∧ n = e.bytes.stop / 4096}

/-- What `setup_memory` should leave: the end of low memory, a bitmap that has the RAM pages clear,
and a tail of set bits. -/
structure FreeMapMatches (e820 : E820Map) (t : BootState) : Prop where
  maxLowPfn : t.maxLowPfn.toNat = min (topFrame e820) maxmemPfn.toNat
  free_iff : ∀ p < t.maxLowPfn.toNat, t.busy p = false ↔ ∃ e ∈ e820.map, e.HoldsPage p
  tail_set : ∀ p, t.maxLowPfn.toNat ≤ p → p < 8 * (bootmemMapsize 0#32 t.maxLowPfn).toNat →
    t.busy p = true

/-! ## Frames of an entry -/

section

variable {e : E820Entry}

-- The frames the code computes are the entry's own when nothing is cut off.
theorem toNat_startPfn (hstart : e.bytes.start ≤ 2 ^ 44 - 4096) :
    e.startPfn.toNat = (e.bytes.start + 4095) / 4096 := by
  unfold E820Entry.bytes at hstart ⊢
  dsimp only at hstart ⊢
  have hup : (e.addr + BitVec.ofNat 64 4096 - 1#64).toNat = e.addr.toNat + 4096 - 1 :=
    Align.toNat_add_sub_one (a := BitVec.ofNat 64 4096) e.addr (by decide)
      (by rw [BitVec.toNat_ofNat]; omega)
  unfold E820Entry.startPfn pfnUp
  rw [BitVec.toNat_setWidth, toNat_shiftRight_pageShift, hup]
  omega

theorem toNat_endPfn (hstop : e.bytes.stop < 2 ^ 44) :
    e.endPfn.toNat = e.bytes.stop / 4096 := by
  unfold E820Entry.bytes at hstop ⊢
  dsimp only at hstop ⊢
  unfold E820Entry.endPfn
  rw [BitVec.toNat_setWidth, toNat_pfnDown, BitVec.toNat_add]
  omega

theorem mem_lowPages_iff (hstart : e.type = e820Ram → e.bytes.start ≤ 2 ^ 44 - 4096)
    (hstop : e.type = e820Ram → e.bytes.stop < 2 ^ 44) (p : Nat) :
    p ∈ lowPages maxmemPfn e ↔ e.HoldsPage p ∧ p < maxmemPfn.toNat := by
  unfold lowPages E820Entry.HoldsPage
  by_cases htype : e.type = e820Ram
  · rw [if_pos htype, Range.mem_iff, toNat_startPfn (hstart htype), toNat_endPfn (hstop htype)]
    simp only [htype, true_and]
    omega
  · rw [if_neg htype, Range.mem_iff]
    simp only [htype, false_and, iff_false]
    omega

theorem topPfn_eq (hstart : e.type = e820Ram → e.bytes.start ≤ 2 ^ 44 - 4096)
    (hstop : e.type = e820Ram → e.bytes.stop < 2 ^ 44) (k : Nat) :
    e.topPfn ≤ k ↔ (∃ p, e.HoldsPage p) → e.bytes.stop / 4096 ≤ k := by
  unfold E820Entry.topPfn E820Entry.HoldsPage
  by_cases htype : e.type = e820Ram
  · have hfrom := toNat_startPfn (hstart htype)
    have hto := toNat_endPfn (hstop htype)
    simp only [htype, true_and]
    by_cases hlt : e.startPfn < e.endPfn
    · rw [if_pos hlt, hto]
      rw [BitVec.lt_def] at hlt
      exact ⟨fun h _ ↦ h, fun h ↦ h ⟨e.startPfn.toNat, by omega, by omega⟩⟩
    · rw [if_neg hlt]
      rw [BitVec.lt_def] at hlt
      exact iff_of_true (Nat.zero_le k) fun ⟨p, hlo, hhi⟩ ↦ by omega
  · simp [htype]

end

/-! ## Entries that do not overlap -/

section

variable {e820 : E820Map}

theorem topFrame_le_iff (hstop : ∀ e ∈ e820.map, e.type = e820Ram → e.bytes.stop < 2 ^ 44)
    (k : Nat) :
    topFrame e820 ≤ k ↔ ∀ e ∈ e820.map, (∃ p, e.HoldsPage p) → e.bytes.stop / 4096 ≤ k := by
  unfold topFrame
  rw [csSup_le_iff']
  · constructor
    · intro h e he hp
      exact h _ ⟨e, he, hp, rfl⟩
    · rintro h _ ⟨e, he, hp, rfl⟩
      exact h e he hp
  · -- the frames are bounded, so the supremum is one of them
    refine ⟨2 ^ 32, ?_⟩
    rintro _ ⟨e, he, ⟨p, htype, -⟩, rfl⟩
    have := hstop e he htype
    omega

theorem ramPages_pairwiseDisjoint (hd : DisjointRam e820)
    (hstart : ∀ e ∈ e820.map, e.type = e820Ram → e.bytes.start ≤ 2 ^ 44 - 4096) :
    Sweep.PairwiseDisjoint (ramPages e820) := by
  unfold Sweep.PairwiseDisjoint ramPages
  rw [List.pairwise_map]
  refine hd.disjoint.imp_of_mem fun {e f} he hf h p hpe hpf ↦ ?_
  rw [mem_lowPages_iff (hstart e he) (hd.stop_lt e he)] at hpe
  rw [mem_lowPages_iff (hstart f hf) (hd.stop_lt f hf)] at hpf
  obtain ⟨⟨hte, hloe, hhie⟩, -⟩ := hpe
  obtain ⟨⟨htf, hlof, hhif⟩, -⟩ := hpf
  exact h hte htf (p * 4096) ⟨hloe, by omega⟩ ⟨hlof, by omega⟩

-- For RAM entries that do not overlap the order does not matter.
theorem noStraddle_of_disjointRam (hd : DisjointRam e820)
    (hstart : ∀ e ∈ e820.map, e.type = e820Ram → e.bytes.start ≤ 2 ^ 44 - 4096) :
    Sweep.NoStraddle (ramPages e820) :=
  Sweep.noStraddle_of_pairwiseDisjoint (ramPages_pairwiseDisjoint hd hstart)

/-- **The free map.**  For RAM entries that do not overlap, end below `2 ^ 44` and begin at least a
page below it, exactly their whole pages are free. -/
theorem freeMapMatches_setupArch (hd : DisjointRam e820)
    (hstart : ∀ e ∈ e820.map, e.type = e820Ram → e.bytes.start ≤ 2 ^ 44 - 4096)
    (initPgTablesEnd : Word) (s : BootState) :
    FreeMapMatches e820 (setupArch e820 initPgTablesEnd s) := by
  have hlow := toNat_maxLowPfn_le e820 initPgTablesEnd s
  have hsize := toNat_mapsize_setupArch e820 initPgTablesEnd s
  have hmax : (setupArch e820 initPgTablesEnd s).maxLowPfn.toNat =
      min (topFrame e820) maxmemPfn.toNat := by
    apply eq_of_forall_ge_iff
    intro k
    rw [maxLowPfn_setupArch, lowEnd_le_iff, min_le_iff, topFrame_le_iff hd.stop_lt, or_comm]
    refine or_congr_left (forall₂_congr fun e he ↦ ?_)
    exact topPfn_eq (hstart e he) (hd.stop_lt e he) k
  have hsweep := freeBelow_setupArch e820 initPgTablesEnd s (8 * (bootmemMapsize 0#32
    (setupArch e820 initPgTablesEnd s).maxLowPfn).toNat) (by omega) le_rfl
  rw [Sweep.sweep_eq_cover (noStraddle_of_disjointRam hd hstart)] at hsweep
  -- without overlap the sweep takes all that the entries cover
  have hcover : ∀ p, p ∈ Sweep.cover (ramPages e820) ↔
      (∃ e ∈ e820.map, e.HoldsPage p) ∧ p < maxmemPfn.toNat := by
    intro p
    unfold Sweep.cover ramPages
    simp only [List.mem_map, Set.mem_ofPred_eq, exists_exists_and_eq_and]
    constructor
    · rintro ⟨e, he, hp⟩
      rw [mem_lowPages_iff (hstart e he) (hd.stop_lt e he)] at hp
      exact ⟨⟨e, he, hp.1⟩, hp.2⟩
    · rintro ⟨⟨e, he, hp⟩, hlt⟩
      exact ⟨e, he, (mem_lowPages_iff (hstart e he) (hd.stop_lt e he) p).mpr ⟨hp, hlt⟩⟩
  have hfree : ∀ p < 8 * (bootmemMapsize 0#32 (setupArch e820 initPgTablesEnd s).maxLowPfn).toNat,
      (setupArch e820 initPgTablesEnd s).busy p = false ↔
        (∃ e ∈ e820.map, e.HoldsPage p) ∧ p < maxmemPfn.toNat := by
    intro p hp
    rw [← hcover, ← hsweep]
    exact ⟨fun h ↦ ⟨hp, h⟩, fun h ↦ h.2⟩
  constructor
  · exact hmax
  · intro p hp
    rw [hfree p (by omega)]
    exact and_iff_left (by omega)
  · intro p hge hlt
    rw [← Bool.not_eq_false, hfree p hlt]
    rintro ⟨⟨e, he, hpage⟩, hpmax⟩
    -- a whole page of an entry is below the frame the entry ends at
    have htop := (topFrame_le_iff hd.stop_lt (topFrame e820)).mp le_rfl e he ⟨p, hpage⟩
    have := hpage.2.2
    omega

end

/-- RAM with a page that is not whole at its end, RAM that begins and ends amid pages below a reserved
entry over its end, and RAM across 896 MB. -/
def unalignedMap : E820Map :=
  ⟨[⟨0#64, 0x9FC00#64, e820Ram⟩, ⟨0x30000000#64, 0x20000000#64, e820Ram⟩,
    ⟨0x100400#64, 0x1003000#64, e820Ram⟩, ⟨0x1103000#64, 0x2000#64, 2#32⟩], by decide⟩

theorem freeMapMatches_unalignedMap :
    FreeMapMatches unalignedMap (setupArch unalignedMap 0x300000#32 (bootImage fun _ ↦ false)) := by
  have hapart : unalignedMap.map.Pairwise fun e f ↦ e.type = e820Ram → f.type = e820Ram →
      e.bytes.stop ≤ f.bytes.start ∨ f.bytes.stop ≤ e.bytes.start := by decide
  refine freeMapMatches_setupArch ⟨hapart.imp fun h he hf a ha hb ↦ ?_, by decide⟩ (by decide) _ _
  have hae : _ ≤ a ∧ a < _ := ha
  have haf : _ ≤ a ∧ a < _ := hb
  have := h he hf
  omega

/-- One byte of RAM right below `2 ^ 44`: `PFN_UP` of its address is `2 ^ 32`, which an
`unsigned long` holds as 0. -/
def lastByteMap : E820Map := ⟨[⟨0xFFFFFFFFFFE#64, 1#64, e820Ram⟩], by decide⟩

theorem lastByteMap_not_matched :
    DisjointRam lastByteMap ∧ ∀ initPgTablesEnd s,
      ¬ FreeMapMatches lastByteMap (setupArch lastByteMap initPgTablesEnd s) := by
  have hstop : ∀ e ∈ lastByteMap.map, e.type = e820Ram → e.bytes.stop < 2 ^ 44 := by decide
  refine ⟨⟨List.pairwise_singleton _ _, hstop⟩, fun initPgTablesEnd s h ↦ ?_⟩
  -- no whole page fits into one byte, but the code counts the frames 0 to `2 ^ 32 - 1`
  have htop : topFrame lastByteMap ≤ 0 := by
    rw [topFrame_le_iff hstop]
    rintro e he ⟨p, -, hlo, hhi⟩
    rw [List.mem_singleton.mp he, show (E820Entry.bytes _).start = 0xFFFFFFFFFFE from rfl] at hlo
    rw [List.mem_singleton.mp he, show (E820Entry.bytes _).stop = 0xFFFFFFFFFFF from rfl] at hhi
    omega
  have hmax : (setupArch lastByteMap initPgTablesEnd s).maxLowPfn = maxmemPfn := by
    have hfold : lastByteMap.map.foldl maxPfnStep 0#32 = 0xFFFFFFFF#32 := by decide
    rw [maxLowPfn_setupArch, lowEnd, hfold, if_pos (by decide)]
  have := h.maxLowPfn
  rw [hmax, toNat_maxmemPfn] at this
  omega

/-! ## Entries in another order -/

/-- The map listed in any other order gives the same `max_low_pfn` and the same bitmap. -/
def OrderIndependent (e820 : E820Map) (initPgTablesEnd : Word) (s : BootState) : Prop :=
  ∀ e820' : E820Map, e820'.map.Perm e820.map →
    (setupArch e820' initPgTablesEnd s).maxLowPfn = (setupArch e820 initPgTablesEnd s).maxLowPfn ∧
      ∀ p < 8 * (bootmemMapsize 0#32 (setupArch e820 initPgTablesEnd s).maxLowPfn).toNat,
        (setupArch e820' initPgTablesEnd s).busy p = (setupArch e820 initPgTablesEnd s).busy p

theorem maxLowPfn_perm {e820 e820' : E820Map} (h : e820'.map.Perm e820.map) (initPgTablesEnd : Word)
    (s : BootState) :
    (setupArch e820' initPgTablesEnd s).maxLowPfn = (setupArch e820 initPgTablesEnd s).maxLowPfn := by
  apply BitVec.eq_of_toNat_eq
  apply eq_of_forall_ge_iff
  intro k
  rw [maxLowPfn_setupArch, maxLowPfn_setupArch, lowEnd_le_iff, lowEnd_le_iff]
  exact or_congr_right (forall_congr' fun e ↦ by rw [h.mem_iff])

/-- **Order independence.**  The order of the map does not matter exactly when no range of whole
pages straddles the end of another one with no range to make up for it: every page covered at or
above the end of a range is covered by a range that begins at or above that end. -/
theorem orderIndependent_iff (e820 : E820Map) (initPgTablesEnd : Word) (s : BootState) :
    OrderIndependent e820 initPgTablesEnd s ↔ Sweep.NoStraddle (ramPages e820) := by
  have hlow := toNat_maxLowPfn_le e820 initPgTablesEnd s
  have hsize := toNat_mapsize_setupArch e820 initPgTablesEnd s
  have hsweep : ∀ e820' : E820Map, e820'.map.Perm e820.map →
      (setupArch e820' initPgTablesEnd s).freeBelow (8 * (bootmemMapsize 0#32
        (setupArch e820 initPgTablesEnd s).maxLowPfn).toNat) = Sweep.sweep (ramPages e820') := by
    intro e820' h
    have hmax := maxLowPfn_perm h initPgTablesEnd s
    apply freeBelow_setupArch
    · rw [hmax]
      omega
    · rw [hmax]
  rw [ramPages, ← Sweep.sweep_map_perm_iff]
  constructor
  · intro h es' hperm
    let e820' : E820Map := ⟨es', hperm.length_eq ▸ e820.nrMap_le⟩
    have hbits := (h e820' hperm).2
    change Sweep.sweep (ramPages e820') = Sweep.sweep (ramPages e820)
    rw [← hsweep e820' hperm, ← hsweep e820 (List.Perm.refl _)]
    ext p
    refine and_congr_right fun hp ↦ ?_
    rw [hbits p hp]
  · intro h e820' hperm
    refine ⟨maxLowPfn_perm hperm initPgTablesEnd s, fun p hp ↦ ?_⟩
    have hsets := (hsweep e820' hperm).trans
      ((h e820'.map hperm).trans (hsweep e820 (List.Perm.refl _)).symm)
    exact busy_eq_of_freeBelow hsets hp

/-- Pages 0 to 9 and then pages 5 to 19. -/
def overlapMap : E820Map :=
  ⟨[⟨0#64, 0xA000#64, e820Ram⟩, ⟨0x5000#64, 0xF000#64, e820Ram⟩], by decide⟩

/-- The entry listed second stops at page 5, which is free already, so its pages 10 to 19 stay
reserved; listed first it frees all its pages. -/
theorem overlapMap_order_matters :
    ¬ OrderIndependent overlapMap 0x300000#32 (bootImage fun _ ↦ false) := by
  intro h
  have hswap := (h ⟨overlapMap.map.reverse, by decide⟩ (List.reverse_perm _)).2 15 (by decide +kernel)
  revert hswap
  decide +kernel

end AphroditeOs
