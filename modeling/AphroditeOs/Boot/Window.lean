import AphroditeOs.Boot.Head
import AphroditeOs.Setup.KernelPages

/-!
# The window of the boot page tables

`head.S` maps as much memory as the kernel's end asks for, and the boot allocator hands out what the
memory map has.  `print_memory_map` does not call `paging_init`, so nothing is mapped in between.
-/

namespace AphroditeOs

/-- Every region that a run hands out lies in the first `k` times 4 MB. -/
def InWindow (ALIGN : Word → Word → Word) (k : Nat) (t : BootState) : Prop :=
  ∀ x, Transition.Reachable (allocRuns ALIGN t) x → ∀ r ∈ x.live, ∀ a ∈ r.bytes, a < 2 ^ 22 * k

/-- The pages that can come to be handed out: those that the RAM entries free, and with a page of
the bitmap those whose bits it holds. -/
def givenPages (e820 : E820Map) (initPgTablesEnd : Word) : Set Nat :=
  {p | Spread (Sweep.sweep (ramPages e820)) (fun q ↦ (pfnUp initPgTablesEnd).toNat + q / 32768)
    (lowEnd e820).toNat p}

section

variable {ALIGN : Word → Word → Word}

theorem inWindow_iff_spread (hA : AlignSpec ALIGN) {t : BootState} (hnode : LowNode t.bdata)
    (hoff : t.bdata.lastOffset = 0#32) (k : Nat) :
    InWindow ALIGN k t ↔
      ∀ p, Spread (nodeFree t) t.bdata.holder t.bdata.nodeLowPfn.toNat p → p < 1024 * k := by
  constructor
  · intro h p hp
    obtain ⟨x, hx, r, hr, a, ha, rfl⟩ := (exists_run_touching_iff hA hnode hoff).mpr hp
    have hin := h x hx r hr a ha
    omega
  · intro h x hx r hr a ha
    have hin := h _ ((exists_run_touching_iff hA hnode hoff).mp ⟨x, hx, r, hr, a, ha, rfl⟩)
    omega

-- A page of the bitmap holds the bits of 32768 pages.
theorem holder_setupArch (e820 : E820Map) (initPgTablesEnd : Word) (s : BootState) :
    (setupArch e820 initPgTablesEnd s).bdata.holder =
      fun q ↦ (pfnUp initPgTablesEnd).toNat + q / 32768 := by
  funext q
  rw [BootmemData.holder, map_setupArch, minLowPfn_setupArch]
  omega

theorem inWindow_setupArch_iff (hA : AlignSpec ALIGN) (e820 : E820Map) (initPgTablesEnd : Word)
    (mem : BitMemory) (k : Nat) :
    InWindow ALIGN k (setupArch e820 initPgTablesEnd (bootImage mem)) ↔
      ∀ p ∈ givenPages e820 initPgTablesEnd, p < 1024 * k := by
  have hoff := (lastOffset_setupArch e820 initPgTablesEnd (bootImage mem)).1
  rw [inWindow_iff_spread hA (lowNode_setupArch _ _ _) hoff, nodeFree_setupArch, holder_setupArch,
    nodeLowPfn_setupArch, maxLowPfn_setupArch]
  rfl

/-- **The mapped window.**  With `k` the least number of tables that suffices for `pg0`, the boot
allocator keeps to the window exactly when every page that can come to be handed out lies in it. -/
theorem mapped_iff (hA : AlignSpec ALIGN) (pg0 swapperPgDir : Word) (mem : BitMemory)
    (e820 : E820Map) :
    ∃ k head, IsLeast {k | 1 ≤ k ∧ TablesSuffice pg0 k} k ∧
      initPageTables pg0 swapperPgDir mem = some (k, head) ∧
      (InWindow ALIGN k (setupArch e820 head.edi (bootImage head.mem)) ↔
        ∀ p ∈ givenPages e820 (pg0 + BitVec.ofNat 32 (4096 * k)), p < 1024 * k) := by
  obtain ⟨k, hleast, hloop⟩ := initPageTables_eq pg0 swapperPgDir mem
  refine ⟨k, _, hleast, hloop, ?_⟩
  rw [inWindow_setupArch_iff hA, edi_iterate_headPass]

-- Only low pages are handed out.
theorem lt_lowEnd_of_mem_givenPages {e820 : E820Map} {initPgTablesEnd : Word} {p : Nat}
    (hp : p ∈ givenPages e820 initPgTablesEnd) : p < (lowEnd e820).toNat := by
  cases hp with
  | free hp =>
    let t := setupArch e820 initPgTablesEnd (bootImage fun _ ↦ false)
    have hnode : p ∈ nodeFree t := by rwa [nodeFree_setupArch]
    have hlow := hnode.1
    rwa [nodeLowPfn_setupArch, maxLowPfn_setupArch] at hlow
  | held hq _ => exact hq

/-- A request that wraps when it is rounded up to pages asks for more than any window holds. -/
theorem beyond_window_of_large {r : Region} {k : Nat} (hsize : 2 ^ 32 - 4096 < r.size.toNat)
    (hk : k < 1024) : ∃ a ∈ r.bytes, 2 ^ 22 * k ≤ a := by
  refine ⟨r.addr.toNat + (r.size.toNat - 1), ?_, by omega⟩
  rw [Region.bytes, Range.mem_iff]
  dsimp only
  omega

end

/-- RAM from 1 MB to 4 MB. -/
def lowRamMap : E820Map := ⟨[⟨0x100000#64, 0x300000#64, e820Ram⟩], by decide⟩

theorem tablesSuffice_one {k : Nat}
    (h : IsLeast {k | 1 ≤ k ∧ TablesSuffice 0x200000#32 k} k) : k = 1 :=
  le_antisymm (h.2 ⟨le_rfl, by unfold TablesSuffice; decide⟩) h.1.1

theorem lowRamMap_mapped :
    ∃ head, initPageTables 0x200000#32 0x101000#32 (fun _ ↦ false) = some (1, head) ∧
      InWindow alignMask 1 (setupArch lowRamMap head.edi (bootImage head.mem)) := by
  obtain ⟨k, head, hleast, hloop, hiff⟩ :=
    mapped_iff alignMask_spec 0x200000#32 0x101000#32 (fun _ ↦ false) lowRamMap
  obtain rfl := tablesSuffice_one hleast
  refine ⟨head, hloop, hiff.mpr fun p hp ↦ ?_⟩
  have hlow := lt_lowEnd_of_mem_givenPages hp
  rwa [show (lowEnd lowRamMap).toNat = 1024 by decide] at hlow

/-- With 64 MB of RAM, page 2000 lies behind the window of one table and is handed out. -/
theorem highRamMap_not_mapped :
    ∃ head, initPageTables 0x200000#32 0x101000#32 (fun _ ↦ false) = some (1, head) ∧
      ¬ InWindow alignMask 1 (setupArch highRamMap head.edi (bootImage head.mem)) := by
  obtain ⟨k, hleast, hloop⟩ := initPageTables_eq 0x200000#32 0x101000#32 (fun _ ↦ false)
  obtain rfl := tablesSuffice_one hleast
  refine ⟨_, hloop, fun h ↦ ?_⟩
  rw [inWindow_setupArch_iff alignMask_spec] at h
  exact absurd (h 2000 (.free (Sweep.mem_sweep_cons_self [] (by decide)))) (by decide)

end AphroditeOs
