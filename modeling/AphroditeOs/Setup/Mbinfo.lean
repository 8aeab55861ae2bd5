import AphroditeOs.Lib.WhileLoop
import AphroditeOs.Setup.Arch

/-!
# The boot loader's memory map (`init/kmain.cc`, `linux/mbinfo.h`)

`print_memory_map` copies the memory map of the boot loader into `e820`.  The bound of its loop is a
whole number of `struct mmap`, and the stride is what each entry says it is.
-/

namespace AphroditeOs

/-- `struct mmap`. -/
structure Mmap where
  size : Word
  addr : BitVec 64
  limit : BitVec 64
  type : Word
  deriving DecidableEq, Repr

def sizeofMmap : Word := 24#32

/-- The fields of `struct mbinfo` that the memory map is found by. -/
structure Mbinfo where
  mmapLength : Word
  mmapAddr : Word
  deriving DecidableEq, Repr

/-- `struct e820map`, with what the array has at any index. -/
structure E820Array where
  nrMap : Nat
  map : Nat → E820Entry

def load64 (mem : BitMemory) (p : Word) : BitVec 64 :=
  mem.word32 (p + 4#32).toNat ++ mem.word32 p.toNat

/-- `*p_mmap`. -/
def mmapAt (mem : BitMemory) (p : Word) : Mmap where
  size := mem.word32 p.toNat
  addr := load64 mem (p + 4#32)
  limit := load64 mem (p + 12#32)
  type := mem.word32 (p + 20#32).toNat

/-- What an entry of the map puts into `e820`. -/
def Mmap.e820 (m : Mmap) : E820Entry := ⟨m.addr, m.limit, m.type⟩

/-- The variables of the loop, and the array. -/
structure MapState where
  pMmap : Word
  i : Nat
  map : Nat → E820Entry

def mapEnd (pmb : Mbinfo) : Word := pmb.mmapAddr + sizeofMmap * (pmb.mmapLength / sizeofMmap)

def mapPass (mem : BitMemory) (s : MapState) : MapState :=
  let m := mmapAt mem s.pMmap
  { pMmap := s.pMmap + 4#32 + m.size
    i := s.i + 1
    map := Function.update s.map s.i m.e820 }

def mapStart (pmb : Mbinfo) (map : Nat → E820Entry) : MapState := ⟨pmb.mmapAddr, 0, map⟩

def MapGoes (pmb : Mbinfo) (s : MapState) : Prop := s.pMmap < mapEnd pmb

instance (pmb : Mbinfo) : DecidablePred (MapGoes pmb) := fun s ↦
  inferInstanceAs (Decidable (s.pMmap < mapEnd pmb))

/-- `e820` behind the loop.  The map of the boot loader and the structure that names it lie apart from
`e820` and from the video memory, so that every pass reads the same `mem`. -/
def printMemoryMap (fuel : Nat) (pmb : Mbinfo) (mem : BitMemory) (map : Nat → E820Entry) :
    Option E820Array :=
  (WhileLoop.run (MapGoes pmb) (mapPass mem) fuel (mapStart pmb map)).map fun s ↦ ⟨s.i, s.map⟩

/-- What `setup_memory` reads of the array. -/
def E820Array.toMap (e : E820Array) (h : e.nrMap ≤ e820Max) : E820Map :=
  ⟨(List.range e.nrMap).map e.map, by rwa [List.length_map, List.length_range]⟩

/-! ## Maps laid end to end -/

/-- The entries `ms` fill memory from `p` to `q`. -/
def MmapChain (mem : BitMemory) : Nat → List Mmap → Nat → Prop
  | p, [], q => p = q
  | p, m :: ms, q => mmapAt mem (BitVec.ofNat 32 p) = m ∧ 20 ≤ m.size.toNat ∧
      MmapChain mem (p + (4 + m.size.toNat)) ms q

/-- The state behind the entries `done` of a map from `base` to `q`, with `rest` to go. -/
structure DecodedTo (mem : BitMemory) (base q : Nat) (done rest : List Mmap) (s : MapState) : Prop where
  count : s.i = done.length
  stored : (List.range done.length).map s.map = done.map Mmap.e820
  behind : MmapChain mem base done s.pMmap.toNat
  ahead : MmapChain mem s.pMmap.toNat rest q

section

variable {mem : BitMemory} {map : Nat → E820Entry} {pmb : Mbinfo} {ms done rest : List Mmap} {m : Mmap}
  {p q base : Nat} {s : MapState}

theorem MmapChain.le (h : MmapChain mem p ms q) : p ≤ q := by
  induction ms generalizing p with
  | nil => exact Nat.le_of_eq h
  | cons m ms ih =>
    have hrest := ih h.2.2
    omega

theorem MmapChain.concat (h : MmapChain mem p done q) (hm : mmapAt mem (BitVec.ofNat 32 q) = m)
    (hsize : 20 ≤ m.size.toNat) : MmapChain mem p (done ++ [m]) (q + (4 + m.size.toNat)) := by
  induction done generalizing p with
  | nil =>
    rw [show p = q from h]
    exact ⟨hm, hsize, rfl⟩
  | cons m' done ih => exact ⟨h.1, h.2.1, ih h.2.2⟩

-- An entry is what its 24 bytes make it.
theorem mmapAt_congr {mem' : BitMemory} {p : Word} (hp : p.toNat + 24 ≤ 2 ^ 32)
    (hmem : ∀ a, p.toNat ≤ a → a < p.toNat + 24 → mem'.byte a = mem.byte a) :
    mmapAt mem' p = mmapAt mem p := by
  have hword : ∀ o : Word, o.toNat ≤ 20 →
      mem'.word32 (p + o).toNat = mem.word32 (p + o).toNat := by
    intro o ho
    rw [BitVec.toNat_add_of_lt (by omega)]
    exact BitMemory.word32_congr_byte fun a ha ha' ↦ hmem a (by omega) (by omega)
  have hsize := hword 0#32 (by decide)
  rw [BitVec.add_zero] at hsize
  unfold mmapAt load64
  rw [BitVec.add_assoc, BitVec.add_assoc, hsize, hword 4#32 (by decide),
    hword (4#32 + 4#32) (by decide), hword 12#32 (by decide), hword (12#32 + 4#32) (by decide),
    hword 20#32 (by decide)]

theorem MmapChain.congr {mem' : BitMemory} (hq : q ≤ 2 ^ 32)
    (hmem : ∀ a, p ≤ a → a < q → mem'.byte a = mem.byte a) (h : MmapChain mem p ms q) :
    MmapChain mem' p ms q := by
  induction ms generalizing p with
  | nil => exact h
  | cons m ms ih =>
    obtain ⟨hm, hsize, hrest⟩ := h
    have hle := hrest.le
    have hbase : (BitVec.ofNat 32 p).toNat = p := toNat_ofNat_of_lt (by omega)
    refine ⟨?_, hsize, ih (fun a ha ha' ↦ hmem a (by omega) ha') hrest⟩
    rw [mmapAt_congr (by omega) fun a ha ha' ↦ hmem a (by omega) (by omega), hm]

theorem decodedTo_start (pmb : Mbinfo) (map : Nat → E820Entry)
    (h : MmapChain mem pmb.mmapAddr.toNat ms q) :
    DecodedTo mem pmb.mmapAddr.toNat q [] ms (mapStart pmb map) :=
  ⟨rfl, rfl, rfl, h⟩

theorem DecodedTo.pass (hq : q < 2 ^ 32) (h : DecodedTo mem base q done (m :: rest) s) :
    DecodedTo mem base q (done ++ [m]) rest (mapPass mem s) := by
  have ⟨hm, hsize, hrest⟩ := h.ahead
  have hm' : mmapAt mem s.pMmap = m := by rwa [BitVec.ofNat_toNat, BitVec.setWidth_eq] at hm
  have hroom := hrest.le
  have hcursor : (mapPass mem s).pMmap.toNat = s.pMmap.toNat + (4 + m.size.toNat) := by
    unfold mapPass
    dsimp only
    rw [hm', BitVec.toNat_add, BitVec.toNat_add, show (4#32).toNat = 4 from rfl]
    omega
  have hmap : (mapPass mem s).map = Function.update s.map done.length m.e820 := by
    unfold mapPass
    dsimp only
    rw [hm', h.count]
  constructor
  · simp [mapPass, h.count]
  · -- the array below the new entry is as before
    have hbefore : (List.range done.length).map (Function.update s.map done.length m.e820) =
        done.map Mmap.e820 := by
      rw [← h.stored]
      apply List.map_congr_left
      intro i hi
      rw [Function.update_of_ne (Nat.ne_of_lt (List.mem_range.mp hi))]
    rw [hmap]
    simp [List.range_succ, hbefore]
  · rw [hcursor]
    exact h.behind.concat hm hsize
  · rw [hcursor]
    exact hrest

-- After `i` passes the first `i` entries are decoded.
theorem decodedTo_iterate (hq : q < 2 ^ 32) (h : DecodedTo mem base q [] ms s) {i : Nat}
    (hi : i ≤ ms.length) : DecodedTo mem base q (ms.take i) (ms.drop i) ((mapPass mem)^[i] s) := by
  induction i with
  | zero => exact h
  | succ i ih =>
    have hlt : i < ms.length := hi
    have hpass := ih hlt.le
    rw [List.drop_eq_getElem_cons hlt] at hpass
    rw [Function.iterate_succ_apply', List.take_succ_eq_append_getElem hlt]
    exact hpass.pass hq

theorem printMemoryMap_eq {n fuel : Nat}
    (h : WhileLoop.EndsAfter (MapGoes pmb) (mapPass mem) n (mapStart pmb map)) (hfuel : n < fuel) :
    printMemoryMap fuel pmb mem map = some ⟨((mapPass mem)^[n] (mapStart pmb map)).i,
      ((mapPass mem)^[n] (mapStart pmb map)).map⟩ := by
  rw [printMemoryMap, h.run_eq hfuel]
  rfl

/-! ## The bound of the loop -/

theorem toNat_mapEnd (h : pmb.mmapAddr.toNat + pmb.mmapLength.toNat < 2 ^ 32) :
    (mapEnd pmb).toNat = pmb.mmapAddr.toNat + 24 * (pmb.mmapLength.toNat / 24) := by
  have hsize : sizeofMmap.toNat = 24 := rfl
  rw [mapEnd, BitVec.toNat_add, BitVec.toNat_mul, BitVec.toNat_udiv, hsize,
    Nat.mod_eq_of_lt (a := 24 * _) (by omega), Nat.mod_eq_of_lt (by omega)]

-- An entry to go has all its 24 bytes in the map.
theorem DecodedTo.room (h : DecodedTo mem base q done rest s) (hrest : rest ≠ []) :
    s.pMmap.toNat + sizeofMmap.toNat ≤ q := by
  have hahead := h.ahead
  have htwentyFour : sizeofMmap.toNat = 24 := rfl
  cases rest with
  | nil => contradiction
  | cons m rest =>
    have hsize := hahead.2.1
    have hroom := hahead.2.2.le
    omega

-- The bound is less than 24 bytes short of the end, and an entry takes 24 bytes.
theorem DecodedTo.mapGoes_iff (h : pmb.mmapAddr.toNat + pmb.mmapLength.toNat < 2 ^ 32)
    (hs : DecodedTo mem base (pmb.mmapAddr.toNat + pmb.mmapLength.toNat) done rest s) :
    MapGoes pmb s ↔ rest ≠ [] := by
  have hend := toNat_mapEnd h
  have hahead := hs.ahead
  rw [MapGoes, BitVec.lt_def, hend]
  cases rest with
  | nil =>
    have hcursor : s.pMmap.toNat = pmb.mmapAddr.toNat + pmb.mmapLength.toNat := hahead
    simp only [ne_eq, not_true_eq_false, iff_false]
    omega
  | cons m rest =>
    have hroom := hs.room (List.cons_ne_nil m rest)
    rw [show sizeofMmap.toNat = 24 from rfl] at hroom
    simp only [ne_eq, reduceCtorEq, not_false_eq_true, iff_true]
    omega

theorem endsAfter_of_chain (map : Nat → E820Entry)
    (hchain : MmapChain mem pmb.mmapAddr.toNat ms (pmb.mmapAddr.toNat + pmb.mmapLength.toNat))
    (hend : pmb.mmapAddr.toNat + pmb.mmapLength.toNat < 2 ^ 32) :
    WhileLoop.EndsAfter (MapGoes pmb) (mapPass mem) ms.length (mapStart pmb map) := by
  have hdecoded := fun i ↦ @decodedTo_iterate _ _ _ _ _ hend (decodedTo_start pmb map hchain) i
  constructor
  · intro i hi
    rw [(hdecoded i hi.le).mapGoes_iff hend]
    simpa using hi
  · rw [(hdecoded _ le_rfl).mapGoes_iff hend]
    simp

end

/-- The loop goes through the entries `ms` one after the other, and leaves them in the array. -/
structure DecodesMap (pmb : Mbinfo) (mem : BitMemory) (map : Nat → E820Entry) (ms : List Mmap) : Prop where
  passes : WhileLoop.EndsAfter (MapGoes pmb) (mapPass mem) ms.length (mapStart pmb map)
  visits : ∀ i ≤ ms.length, MmapChain mem pmb.mmapAddr.toNat (ms.take i)
    ((mapPass mem)^[i] (mapStart pmb map)).pMmap.toNat
  inside : ∀ i < ms.length, ((mapPass mem)^[i] (mapStart pmb map)).pMmap.toNat + sizeofMmap.toNat ≤
    pmb.mmapAddr.toNat + pmb.mmapLength.toNat
  result : ∀ fuel > ms.length, ∃ e, printMemoryMap fuel pmb mem map = some e ∧
    e.nrMap = ms.length ∧ (∀ i (h : i < ms.length), e.map i = (ms[i]).e820) ∧
    ∃ h : e.nrMap ≤ e820Max, (e.toMap h).map = ms.map Mmap.e820

/-- **Decoding the map.**  A map laid end to end, apart from `e820` and the video memory, whose end is
below 4 GB, comes into `e820` entry by entry, whatever the sizes of its entries are. -/
theorem printMemoryMap_decodes {pmb : Mbinfo} {mem : BitMemory} {ms : List Mmap}
    (hchain : MmapChain mem pmb.mmapAddr.toNat ms (pmb.mmapAddr.toNat + pmb.mmapLength.toNat))
    (hend : pmb.mmapAddr.toNat + pmb.mmapLength.toNat < 2 ^ 32) (hmax : ms.length ≤ e820Max)
    (map : Nat → E820Entry) : DecodesMap pmb mem map ms := by
  have hdecoded := fun i ↦ @decodedTo_iterate _ _ _ _ _ hend (decodedTo_start pmb map hchain) i
  have hpasses := endsAfter_of_chain map hchain hend
  have hlast := hdecoded _ le_rfl
  rw [List.take_length, List.drop_length] at hlast
  constructor
  · exact hpasses
  · exact fun i hi ↦ (hdecoded i hi).behind
  · exact fun i hi ↦ (hdecoded i hi.le).room (by simpa using hi)
  · intro fuel hfuel
    have hcount := hlast.count
    have hstored := hlast.stored
    refine ⟨_, printMemoryMap_eq hpasses hfuel, hcount, fun i hi ↦ ?_, ?_⟩
    · have hentry := congrArg (fun es ↦ es[i]?) hstored
      simpa [hi] using hentry
    · refine ⟨hcount.trans_le hmax, ?_⟩
      unfold E820Array.toMap
      dsimp only
      rw [hcount, hstored]

/-- An entry of 24 bytes and one of 28. -/
def mixedMemory : BitMemory :=
  (BitMemory.store32 (fun _ ↦ false) 0x9000 20#32).store32 0x9018 24#32

theorem mixedMap_decodes :
    DecodesMap ⟨52#32, 0x9000#32⟩ mixedMemory (fun _ ↦ ⟨0#64, 0#64, 0#32⟩)
      [mmapAt mixedMemory 0x9000#32, mmapAt mixedMemory 0x9018#32] := by
  have hfirst : mixedMemory.word32 0x9000 = 20#32 := by
    rw [mixedMemory, BitMemory.word32_store32_disjoint _ _ (by decide), BitMemory.word32_store32_self]
  have hsecond : mixedMemory.word32 0x9018 = 24#32 := BitMemory.word32_store32_self _ _ _
  have hsize : (mmapAt mixedMemory 0x9000#32).size.toNat = 20 := congrArg BitVec.toNat hfirst
  have hsize' : (mmapAt mixedMemory 0x9018#32).size.toNat = 24 := congrArg BitVec.toNat hsecond
  apply printMemoryMap_decodes
  · refine ⟨rfl, hsize.ge, ?_⟩
    rw [hsize]
    refine ⟨rfl, by rw [hsize']; decide, ?_⟩
    rw [hsize']
    rfl
  · decide
  · decide

/-- One entry at the very end of the address space. -/
def topMemory : BitMemory := BitMemory.store32 (fun _ ↦ false) 0xFFFFFFE8 20#32

/-- The map may not end at 4 GB itself: its end is then address 0, and no entry is below it. -/
theorem topMap_not_decoded :
    MmapChain topMemory 0xFFFFFFE8 [mmapAt topMemory 0xFFFFFFE8#32] (0xFFFFFFE8 + 24) ∧
      ¬ DecodesMap ⟨24#32, 0xFFFFFFE8#32⟩ topMemory (fun _ ↦ ⟨0#64, 0#64, 0#32⟩)
        [mmapAt topMemory 0xFFFFFFE8#32] := by
  have hsize : (mmapAt topMemory 0xFFFFFFE8#32).size.toNat = 20 :=
    congrArg BitVec.toNat (BitMemory.word32_store32_self _ _ _)
  constructor
  · refine ⟨rfl, hsize.ge, ?_⟩
    rw [hsize]
    rfl
  · intro h
    have hgo := h.passes.goes 0 (by decide)
    exact absurd hgo (by decide)

/-! ## The bounds of the array -/

/-- Where entry `n` begins, when every entry is followed by the next one behind its size. -/
def entryAddr (mem : BitMemory) (base : Word) : Nat → Word
  | 0 => base
  | n + 1 => entryAddr mem base n + 4#32 + (mmapAt mem (entryAddr mem base n)).size

/-- The loop ends, and every pass writes an entry that the array has. -/
structure KeepsToArray (pmb : Mbinfo) (mem : BitMemory) (map : Nat → E820Entry) : Prop where
  ends : ∃ fuel e, printMemoryMap fuel pmb mem map = some e
  inside : ∀ s, Transition.Reachable
    (WhileLoop.passes (MapGoes pmb) (mapPass mem) (mapStart pmb map)) s → MapGoes pmb s → s.i < e820Max

section

variable {pmb : Mbinfo} {mem : BitMemory} {map : Nat → E820Entry} {n : Nat}

theorem iterate_mapPass (pmb : Mbinfo) (mem : BitMemory) (map : Nat → E820Entry) (n : Nat) :
    ((mapPass mem)^[n] (mapStart pmb map)).i = n ∧
      ((mapPass mem)^[n] (mapStart pmb map)).pMmap = entryAddr mem pmb.mmapAddr n := by
  induction n with
  | zero => exact ⟨rfl, rfl⟩
  | succ n ih =>
    have ⟨hi, hcursor⟩ := ih
    simp [Function.iterate_succ_apply', mapPass, hi, hcursor, entryAddr]

theorem mapGoes_iterate_iff :
    MapGoes pmb ((mapPass mem)^[n] (mapStart pmb map)) ↔
      entryAddr mem pmb.mmapAddr n < mapEnd pmb := by
  rw [MapGoes, (iterate_mapPass pmb mem map n).2]

theorem keepsToArray_of_endsAfter (hn : n ≤ e820Max)
    (h : WhileLoop.EndsAfter (MapGoes pmb) (mapPass mem) n (mapStart pmb map)) :
    KeepsToArray pmb mem map := by
  constructor
  · exact ⟨n + 1, _, printMemoryMap_eq h (Nat.lt_succ_self n)⟩
  · intro s hs hgo
    have ⟨j, hj, hsj⟩ := h.exists_lt_of_reachable hs hgo
    rw [hsj, (iterate_mapPass pmb mem map j).1]
    exact hj.trans_le hn

-- The pass that finds `E820MAX` entries stored writes behind the array.
theorem not_keepsToArray_of_forall
    (h : ∀ n ≤ e820Max, entryAddr mem pmb.mmapAddr n < mapEnd pmb) : ¬ KeepsToArray pmb mem map := by
  intro hkeeps
  have hgo : ∀ n ≤ e820Max, MapGoes pmb ((mapPass mem)^[n] (mapStart pmb map)) :=
    fun n hn ↦ mapGoes_iterate_iff.mpr (h n hn)
  have hreach : Transition.Reachable
      (WhileLoop.passes (MapGoes pmb) (mapPass mem) (mapStart pmb map))
      ((mapPass mem)^[e820Max] (mapStart pmb map)) :=
    WhileLoop.reachable_iterate fun j hj ↦ hgo j hj.le
  have hin := hkeeps.inside _ hreach (hgo e820Max le_rfl)
  rw [(iterate_mapPass pmb mem map e820Max).1] at hin
  exact absurd hin (lt_irrefl _)

end

/-- **The bounds of the array.**  Over a map apart from the array and the video memory, the loop ends
and keeps to the array exactly when one of the first `E820MAX + 1` entries does not begin below the
bound of the loop. -/
theorem keepsToArray_iff (pmb : Mbinfo) (mem : BitMemory) (map : Nat → E820Entry) :
    KeepsToArray pmb mem map ↔ ∃ n ≤ e820Max, mapEnd pmb ≤ entryAddr mem pmb.mmapAddr n := by
  constructor
  · intro h
    by_contra hnone
    apply not_keepsToArray_of_forall _ h
    intro n hn
    rw [← BitVec.not_le]
    exact fun hle ↦ hnone ⟨n, hn, hle⟩
  · intro ⟨n, hn, hle⟩
    have hstop : ¬ MapGoes pmb ((mapPass mem)^[n] (mapStart pmb map)) := by
      rw [mapGoes_iterate_iff]
      exact BitVec.not_lt.mpr hle
    have ⟨k, hk, hends⟩ := WhileLoop.exists_endsAfter_le hstop
    exact keepsToArray_of_endsAfter (hk.trans hn) hends

/-- Entries of 24 bytes, one behind the other: the bits set are those of the size 20. -/
def longMemory : BitMemory := fun n ↦ n % 192 == 2 || n % 192 == 4

theorem size_longMemory {p : Nat} (hp : 24 ∣ p) (hlt : p < 2 ^ 32) :
    (mmapAt longMemory (BitVec.ofNat 32 p)).size = 20#32 := by
  have haddr : (BitVec.ofNat 32 p).toNat = p := toNat_ofNat_of_lt hlt
  change longMemory.word32 (BitVec.ofNat 32 p).toNat = _
  rw [haddr]
  apply BitVec.eq_of_getLsbD_eq
  intro j hj
  have hslot : (8 * p + j) % 192 = j := by omega
  rw [BitMemory.getLsbD_word32 _ _ hj, longMemory, hslot]
  interval_cases j <;> rfl

theorem entryAddr_longMemory {n : Nat} (hn : n ≤ e820Max) :
    entryAddr longMemory 0x9000#32 n = BitVec.ofNat 32 (0x9000 + 24 * n) := by
  have hmax : e820Max = 128 := rfl
  induction n with
  | zero => rfl
  | succ n ih =>
    have hsize := @size_longMemory (0x9000 + 24 * n) (by omega) (by omega)
    rw [entryAddr, ih (by omega), hsize, BitVec.add_assoc, Nat.mul_succ, ← Nat.add_assoc]
    exact (BitVec.ofNat_add _ _).symm

/-- One entry too many: a map of 129 entries of 24 bytes each. -/
theorem longMap_not_keepsToArray :
    ¬ KeepsToArray ⟨3096#32, 0x9000#32⟩ longMemory fun _ ↦ ⟨0#64, 0#64, 0#32⟩ := by
  apply not_keepsToArray_of_forall
  intro n hn
  have hmax : e820Max = 128 := rfl
  rw [entryAddr_longMemory hn, BitVec.lt_def, toNat_ofNat_of_lt (by omega),
    show (mapEnd ⟨3096#32, 0x9000#32⟩).toNat = 0x9000 + 3096 by decide]
  omega

end AphroditeOs
