import AphroditeOs.Lib.ByteSegment
import AphroditeOs.Loader.Image
import AphroditeOs.Page

/-!
# The BIOS memory map (`boot/setup.asm`)

`get_mem_map` lays the replies of `int 15h` one after the other in `_mem_map_buffer`, and
`disp_mem_map` and `calc_phy_mem_size` take an entry at every multiple of 20.  `_mem_map_buffer` is
the offset of the buffer, and `_mem_map_count`, in front of it, a variable of its own.
-/

namespace AphroditeOs

open ByteSegment

/-- `times 512 db 0` -/
def memMapBufferSize : Nat := 512

/-- An entry, with the columns of `str_mem_map_title`. -/
structure MemMapEntry where
  baseAddrL : Word
  baseAddrH : Word
  limitL : Word
  limitH : Word
  type : Word
  deriving DecidableEq, Repr

def MemMapEntry.dwords (e : MemMapEntry) : List Word :=
  [e.baseAddrL, e.baseAddrH, e.limitL, e.limitH, e.type]

/-- What one call of `int 15h` does: `bytes` go to `es:di`, their number is `ecx` after the call. -/
structure E820Reply where
  carry : Bool
  bytes : List Byte
  ebx : Word
  deriving DecidableEq, Repr

def E820Reply.entry (reply : E820Reply) : MemMapEntry where
  baseAddrL := dwordAt reply.bytes 0
  baseAddrH := dwordAt reply.bytes 4
  limitL := dwordAt reply.bytes 8
  limitH := dwordAt reply.bytes 12
  type := dwordAt reply.bytes 16

structure MemMapState where
  data : ByteSegment
  memMapCount : BitVec 16
  edi : Word
  -- where the BIOS has written
  written : List (BitVec 16)

/-- From `INT15H` on.  An error, like a BIOS that never ends its list, leaves no state. -/
def int15h : List E820Reply → MemMapState → Option MemMapState
  | [], _ => none
  | reply :: replies, s =>
    let di := s.edi.setWidth 16
    let s := { s with
      data := s.data.store di reply.bytes
      written := s.written ++ offsets di reply.bytes.length }
    if reply.carry then none
    else
      let s := { s with memMapCount := s.memMapCount + 1#16 }
      if reply.ebx = 0#32 then some s
      else int15h replies { s with edi := s.edi + BitVec.ofNat 32 reply.bytes.length }

def getMemMap (memMapBuffer : BitVec 16) (replies : List E820Reply) (data : ByteSegment) :
    Option MemMapState :=
  int15h replies
    { data, memMapCount := 0#16, edi := memMapBuffer.setWidth 32, written := [] }

/-- The loop over the `dx` double words that are left of an entry. -/
def dispMemBufEntry (memMapBuffer : BitVec 16) (data : ByteSegment) :
    Nat → BitVec 16 → List Word × BitVec 16
  | 0, bx => ([], bx)
  | dx + 1, bx =>
    let (shown, bx') := dispMemBufEntry memMapBuffer data dx (bx + 4#16)
    (data.load32 (memMapBuffer + bx) :: shown, bx')

def dispMemMapBuf (memMapBuffer : BitVec 16) (data : ByteSegment) : Nat → BitVec 16 → List Word
  | 0, _ => []
  | cx + 1, bx =>
    let (shown, bx') := dispMemBufEntry memMapBuffer data 5 bx
    shown ++ dispMemMapBuf memMapBuffer data cx bx'

/-- The numbers that `disp_mem_map` shows.  `loop` takes `cx = 0` for 65536 rounds. -/
def dispMemMap (memMapBuffer : BitVec 16) (data : ByteSegment) (memMapCount : BitVec 16) :
    List Word :=
  dispMemMapBuf memMapBuffer data (if memMapCount = 0#16 then 2 ^ 16 else memMapCount.toNat) 0#16

/-- Entry number `k`. -/
def entryAt (memMapBuffer : BitVec 16) (data : ByteSegment) (k : Nat) : MemMapEntry where
  baseAddrL := data.load32 (memMapBuffer + BitVec.ofNat 16 (20 * k))
  baseAddrH := data.load32 (memMapBuffer + BitVec.ofNat 16 (20 * k + 4))
  limitL := data.load32 (memMapBuffer + BitVec.ofNat 16 (20 * k + 8))
  limitH := data.load32 (memMapBuffer + BitVec.ofNat 16 (20 * k + 12))
  type := data.load32 (memMapBuffer + BitVec.ofNat 16 (20 * k + 16))

/-- Replies without an error, of 20 to 24 bytes, the last of which has `ebx = 0`. -/
structure E820Sequence (replies : List E820Reply) : Prop where
  carry : ∀ reply ∈ replies, reply.carry = false
  ebx : ∀ reply ∈ replies.dropLast, reply.ebx ≠ 0#32
  last : ∃ reply ∈ replies.getLast?, reply.ebx = 0#32
  ecx : ∀ reply ∈ replies, 20 ≤ reply.bytes.length ∧ reply.bytes.length ≤ 24

/-- The BIOS has written in the buffer only, and the readers find the replies. -/
structure MemMapAgrees (memMapBuffer : BitVec 16) (replies : List E820Reply) (s : MemMapState) :
    Prop where
  inside : ∀ a ∈ s.written, (a - memMapBuffer).toNat < memMapBufferSize
  count : s.memMapCount.toNat = replies.length
  shown : dispMemMap memMapBuffer s.data s.memMapCount = replies.flatMap (·.entry.dwords)
  entries : ∀ k (hk : k < replies.length), entryAt memMapBuffer s.data k = replies[k].entry

def MemMapCorrect (memMapBuffer : BitVec 16) (data : ByteSegment) (replies : List E820Reply) :
    Prop :=
  ∃ s, getMemMap memMapBuffer replies data = some s ∧ MemMapAgrees memMapBuffer replies s

section

variable {memMapBuffer : BitVec 16} {replies : List E820Reply} {reply : E820Reply}
  {s : MemMapState} {data : ByteSegment}

/-! ## The writer -/

theorem E820Sequence.tail {next : E820Reply} (h : E820Sequence (reply :: next :: replies)) :
    E820Sequence (next :: replies) where
  carry r hr := h.carry r (List.mem_cons_of_mem _ hr)
  ebx r hr := h.ebx r (List.mem_cons_of_mem _ hr)
  last := by simpa using h.last
  ecx r hr := h.ecx r (List.mem_cons_of_mem _ hr)

theorem int15h_cons (hcarry : reply.carry = false) (hmore : reply.ebx ≠ 0#32) :
    int15h (reply :: replies) s = int15h replies { s with
      data := s.data.store (s.edi.setWidth 16) reply.bytes
      written := s.written ++ offsets (s.edi.setWidth 16) reply.bytes.length
      memMapCount := s.memMapCount + 1#16
      edi := s.edi + BitVec.ofNat 32 reply.bytes.length } := by
  simp [int15h, hcarry, hmore]

/-- The replies lie one after the other from `es:di` on. -/
theorem int15h_eq (h : E820Sequence replies) (s : MemMapState) :
    ∃ edi, int15h replies s = some
      { data := s.data.store (s.edi.setWidth 16) (replies.flatMap (·.bytes))
        memMapCount := s.memMapCount + BitVec.ofNat 16 replies.length
        edi
        written := s.written ++ offsets (s.edi.setWidth 16) (replies.flatMap (·.bytes)).length } := by
  induction replies generalizing s with
  | nil =>
    obtain ⟨r, hr, -⟩ := h.last
    simp at hr
  | cons reply replies ih =>
    have hcarry := h.carry reply List.mem_cons_self
    cases replies with
    | nil =>
      have hlast : reply.ebx = 0#32 := by simpa using h.last
      exact ⟨s.edi, by simp [int15h, hcarry, hlast]⟩
    | cons next replies =>
      have hmore : reply.ebx ≠ 0#32 := h.ebx reply (by simp)
      obtain ⟨edi, hrest⟩ := ih h.tail { s with
        data := s.data.store (s.edi.setWidth 16) reply.bytes
        written := s.written ++ offsets (s.edi.setWidth 16) reply.bytes.length
        memMapCount := s.memMapCount + 1#16
        edi := s.edi + BitVec.ofNat 32 reply.bytes.length }
      have hedi : (s.edi + BitVec.ofNat 32 reply.bytes.length).setWidth 16 =
          s.edi.setWidth 16 + BitVec.ofNat 16 reply.bytes.length := by
        rw [BitVec.setWidth_add _ _ (by decide), BitVec.setWidth_ofNat_of_le (by decide)]
      refine ⟨edi, ?_⟩
      rw [int15h_cons hcarry hmore, hrest]
      generalize next :: replies = rest
      dsimp only
      rw [hedi, List.flatMap_cons, store_append, List.length_append, offsets_add,
        List.append_assoc, List.length_cons, Nat.add_comm rest.length, BitVec.ofNat_add,
        BitVec.add_assoc]

theorem getMemMap_eq (h : E820Sequence replies) (memMapBuffer : BitVec 16) (data : ByteSegment) :
    ∃ edi, getMemMap memMapBuffer replies data = some
      { data := data.store memMapBuffer (replies.flatMap (·.bytes))
        memMapCount := BitVec.ofNat 16 replies.length
        edi
        written := offsets memMapBuffer (replies.flatMap (·.bytes)).length } := by
  obtain ⟨edi, h⟩ := int15h_eq h
    { data, memMapCount := 0#16, edi := memMapBuffer.setWidth 32, written := [] }
  refine ⟨edi, h.trans ?_⟩
  simp [BitVec.setWidth_setWidth_of_le]

/-! ## The readers -/

theorem dispMemBufEntry_five (k : Nat) :
    dispMemBufEntry memMapBuffer data 5 (BitVec.ofNat 16 (20 * k)) =
      ((entryAt memMapBuffer data k).dwords, BitVec.ofNat 16 (20 * (k + 1))) := by
  simp [dispMemBufEntry, entryAt, MemMapEntry.dwords, Nat.mul_add, BitVec.ofNat_add,
    BitVec.add_assoc]

theorem dispMemMapBuf_eq (memMapBuffer : BitVec 16) (data : ByteSegment) (n k : Nat) :
    dispMemMapBuf memMapBuffer data n (BitVec.ofNat 16 (20 * k)) =
      (List.range n).flatMap fun i ↦ (entryAt memMapBuffer data (k + i)).dwords := by
  induction n generalizing k with
  | zero => rfl
  | succ n ih =>
    rw [dispMemMapBuf, dispMemBufEntry_five, List.range_succ_eq_map]
    simp [ih, List.flatMap_map, Nat.add_comm, Nat.add_left_comm]

/-- `disp_mem_map` shows the entries from number 0 on. -/
theorem dispMemMap_eq {memMapCount : BitVec 16} (h : memMapCount ≠ 0#16) :
    dispMemMap memMapBuffer data memMapCount =
      (List.range memMapCount.toNat).flatMap fun k ↦ (entryAt memMapBuffer data k).dwords := by
  have hrun := dispMemMapBuf_eq memMapBuffer data memMapCount.toNat 0
  simpa [dispMemMap, h] using hrun

/-! ## Agreement -/

theorem length_flatMap_bytes :
    (replies.flatMap (·.bytes)).length = (replies.map (·.bytes.length)).sum :=
  List.length_flatMap

theorem E820Sequence.length_mul_le (h : E820Sequence replies) :
    20 * replies.length ≤ (replies.flatMap (·.bytes)).length := by
  have hsum := (replies.map (·.bytes.length)).card_nsmul_le_sum 20 fun l hl ↦ by
    obtain ⟨reply, hreply, rfl⟩ := List.mem_map.mp hl
    exact (h.ecx reply hreply).1
  rw [length_flatMap_bytes]
  simpa [Nat.mul_comm] using hsum

theorem E820Sequence.length_pos (h : E820Sequence replies) : 0 < replies.length := by
  obtain ⟨reply, hreply, -⟩ := h.last
  exact List.length_pos_of_mem (List.mem_of_getLast? hreply)

/-- An entry in the bytes of the replies, where they do not reach around the segment. -/
theorem entryAt_store {bs : List Byte} (hlen : bs.length ≤ 2 ^ 16) {k : Nat}
    (hk : 20 * (k + 1) ≤ bs.length) :
    entryAt memMapBuffer (data.store memMapBuffer bs) k =
      ⟨dwordAt bs (20 * k), dwordAt bs (20 * k + 4), dwordAt bs (20 * k + 8),
        dwordAt bs (20 * k + 12), dwordAt bs (20 * k + 16)⟩ := by
  rw [entryAt, load32_store hlen (by omega), load32_store hlen (by omega),
    load32_store hlen (by omega), load32_store hlen (by omega), load32_store hlen (by omega)]

theorem entryAt_replies (memMapBuffer : BitVec 16) (data : ByteSegment) (h : E820Sequence replies)
    (hroom : (replies.flatMap (·.bytes)).length ≤ memMapBufferSize)
    (hecx : ∀ reply ∈ replies.dropLast, reply.bytes.length = 20) {k : Nat}
    (hk : k < replies.length) :
    entryAt memMapBuffer (data.store memMapBuffer (replies.flatMap (·.bytes))) k =
      replies[k].entry := by
  have hlen := h.length_mul_le
  have hbase := dwordAt_flatMap hecx (i := 0) (by decide) hk
  rw [Nat.add_zero] at hbase
  rw [entryAt_store (hroom.trans (by decide)) (by omega), hbase,
    dwordAt_flatMap hecx (by decide) hk, dwordAt_flatMap hecx (by decide) hk,
    dwordAt_flatMap hecx (by decide) hk, dwordAt_flatMap hecx (by decide) hk]
  rfl

theorem MemMapCorrect.of_lengths (h : E820Sequence replies)
    (hroom : (replies.map (·.bytes.length)).sum ≤ memMapBufferSize)
    (hecx : ∀ reply ∈ replies.dropLast, reply.bytes.length = 20) :
    MemMapCorrect memMapBuffer data replies := by
  rw [← length_flatMap_bytes] at hroom
  have hsmall : 20 * replies.length ≤ 512 := h.length_mul_le.trans hroom
  have hcount : (BitVec.ofNat 16 replies.length).toNat = replies.length := by
    rw [BitVec.toNat_ofNat, Nat.mod_eq_of_lt (by omega)]
  have hentry (k : Nat) (hk : k < replies.length) :=
    entryAt_replies memMapBuffer data h hroom hecx hk
  obtain ⟨edi, hrun⟩ := getMemMap_eq h memMapBuffer data
  refine ⟨_, hrun, ?_, hcount, ?_, hentry⟩
  · intro a ha
    exact ((mem_offsets (hroom.trans (by decide))).mp ha).trans_le hroom
  · have hne : BitVec.ofNat 16 replies.length ≠ 0#16 := fun hzero ↦ by
      rw [hzero] at hcount
      exact h.length_pos.ne hcount
    have hmap : (List.range replies.length).map (entryAt memMapBuffer
        (data.store memMapBuffer (replies.flatMap (·.bytes)))) = replies.map (·.entry) := by
      apply List.ext_getElem (by simp)
      intro k _ hk
      simpa using hentry k (by simpa using hk)
    rw [dispMemMap_eq hne, hcount]
    simpa only [List.flatMap_map] using congrArg (List.flatMap MemMapEntry.dwords) hmap

/-! ## Replies filled with their own number -/

/-- Replies of given lengths, the one of number `j + k` filled with that byte. -/
def numbered (j : Nat) : List Nat → List E820Reply
  | [] => []
  | n :: ns =>
    { carry := false
      bytes := List.replicate n (BitVec.ofNat 8 j)
      ebx := if ns = [] then 0#32 else 1#32 } :: numbered (j + 1) ns

variable {ns : List Nat} {j k : Nat}

theorem lengths_numbered (j : Nat) (ns : List Nat) :
    (numbered j ns).map (·.bytes.length) = ns := by
  induction ns generalizing j with
  | nil => rfl
  | cons n ns ih => simp [numbered, ih]

theorem numbered_eq_nil_iff : numbered j ns = [] ↔ ns = [] := by
  cases ns <;> simp [numbered]

theorem e820Sequence_numbered (hne : ns ≠ []) (hecx : ∀ n ∈ ns, 20 ≤ n ∧ n ≤ 24) :
    E820Sequence (numbered j ns) := by
  induction ns generalizing j with
  | nil => exact absurd rfl hne
  | cons n ns ih =>
    have hn := hecx n List.mem_cons_self
    by_cases hns : ns = []
    · subst hns
      constructor <;> simp [numbered, hn]
    · have hrest := ih (j := j + 1) hns fun m hm ↦ hecx m (List.mem_cons_of_mem _ hm)
      have hcons : numbered (j + 1) ns ≠ [] := by rwa [Ne, numbered_eq_nil_iff]
      rw [numbered, if_neg hns]
      constructor
      · simpa using hrest.carry
      · simpa [List.dropLast_cons_of_ne_nil hcons] using hrest.ebx
      · simpa [List.getLast?_cons, List.getLast?_eq_some_getLast hcons] using hrest.last
      · simpa [hn] using hrest.ecx

theorem getD_bytes_numbered (hecx : ∀ n ∈ ns, 20 ≤ n) (hk : k < (numbered j ns).length) :
    (numbered j ns)[k].bytes.getD 0 0#8 = BitVec.ofNat 8 (j + k) := by
  induction ns generalizing j k with
  | nil => simp [numbered] at hk
  | cons n ns ih =>
    cases k with
    | zero =>
      have hn := hecx n List.mem_cons_self
      simp [numbered, show 0 < n by omega]
    | succ k =>
      have hrest := ih (j := j + 1) (k := k) (fun m hm ↦ hecx m (List.mem_cons_of_mem _ hm))
        (by simpa [numbered] using hk)
      simpa [numbered, Nat.add_assoc, Nat.add_comm 1] using hrest

theorem ofNat_succ_ne (j : Nat) : BitVec.ofNat 8 (j + 1) ≠ BitVec.ofNat 8 j := by
  rw [BitVec.ofNat_add]
  bv_omega

/-- If the byte at every multiple of 20 is the number of the reply, all but the last have 20. -/
theorem eq_twenty_of_getD (hecx : ∀ n ∈ ns, 20 ≤ n)
    (h : ∀ k < ns.length, ((numbered j ns).flatMap (·.bytes)).getD (20 * k) 0#8 =
      BitVec.ofNat 8 (j + k)) : ∀ n ∈ ns.dropLast, n = 20 := by
  induction ns generalizing j with
  | nil => simp
  | cons n ns ih =>
    cases ns with
    | nil => simp
    | cons m ns =>
      have hn : n = 20 := by
        by_contra hne
        have hmore : 20 < n := by
          have := hecx n List.mem_cons_self
          omega
        have hnext := h 1 (by simp)
        rw [numbered, List.flatMap_cons, List.getD_append _ _ _ _ (by simpa using hmore)] at hnext
        have hsame : (List.replicate n (BitVec.ofNat 8 j)).getD 20 0#8 = BitVec.ofNat 8 j :=
          List.getD_replicate _ hmore
        exact ofNat_succ_ne j (hnext.symm.trans hsame)
      have hrest := ih (j := j + 1) (fun l hl ↦ hecx l (List.mem_cons_of_mem _ hl)) fun k hk ↦ by
        have hnext := h (k + 1) (by simpa using hk)
        rw [numbered, List.flatMap_cons, List.getD_append_right _ _ _ _ (by simp [hn])] at hnext
        simpa [hn, Nat.mul_succ, Nat.add_assoc, Nat.add_comm 1] using hnext
      simpa [hn] using hrest

/-- **The writer and the readers of the memory map.** They agree for all replies of given lengths if
and only if the lengths fit in the buffer and all but the last are 20. -/
theorem memMapCorrect_iff (hne : ns ≠ []) (hecx : ∀ n ∈ ns, 20 ≤ n ∧ n ≤ 24) :
    (∀ replies, E820Sequence replies → replies.map (·.bytes.length) = ns →
      MemMapCorrect memMapBuffer data replies) ↔
      ns.sum ≤ memMapBufferSize ∧ ∀ n ∈ ns.dropLast, n = 20 := by
  constructor
  · intro h
    have hseq : E820Sequence (numbered 0 ns) := e820Sequence_numbered hne hecx
    have hlens := lengths_numbered 0 ns
    obtain ⟨s, hrun, hagrees⟩ := h _ hseq hlens
    obtain ⟨edi, heq⟩ := getMemMap_eq hseq memMapBuffer data
    obtain rfl := Option.some.inj (hrun.symm.trans heq)
    have hsum : ((numbered 0 ns).flatMap (·.bytes)).length = ns.sum := by
      rw [length_flatMap_bytes, hlens]
    have hroom : ns.sum ≤ memMapBufferSize := by
      rw [← hsum]
      exact le_of_offsets (by decide) hagrees.inside
    refine ⟨hroom, eq_twenty_of_getD (j := 0) (fun n hn ↦ (hecx n hn).1) fun k hk ↦ ?_⟩
    have hlength : (numbered 0 ns).length = ns.length := by
      simpa using congrArg List.length hlens
    have hk' : k < (numbered 0 ns).length := by rwa [hlength]
    have hbig := hseq.length_mul_le
    have hentry := congrArg MemMapEntry.baseAddrL (hagrees.entries k hk')
    rw [entryAt_store (by rw [hsum]; exact hroom.trans (by decide)) (by omega)] at hentry
    have hbyte := congrArg (BitVec.setWidth 8) hentry
    simp only [E820Reply.entry, dwordAt, setWidth_ofBytes] at hbyte
    rw [hbyte, getD_bytes_numbered fun n hn ↦ (hecx n hn).1]
  · rintro ⟨hroom, htwenty⟩ replies hseq rfl
    refine MemMapCorrect.of_lengths hseq hroom fun reply hreply ↦ htwenty _ ?_
    rw [← List.map_dropLast]
    exact List.mem_map_of_mem hreply

theorem memMapCorrect_three :
    MemMapCorrect 0x400#16 (fun _ ↦ 0#8) (numbered 0 [20, 20, 24]) :=
  (memMapCorrect_iff (by decide) (by decide)).mpr (by decide) _
    (e820Sequence_numbered (by decide) (by decide)) (lengths_numbered _ _)

/-- Behind a reply of 24 bytes the next one is read from four bytes too early on. -/
theorem not_forall_memMapCorrect :
    ¬ ∀ replies, E820Sequence replies → MemMapCorrect 0x400#16 (fun _ ↦ 0#8) replies := by
  intro h
  obtain ⟨s, hrun, hagrees⟩ := h (numbered 0 [24, 20])
    (e820Sequence_numbered (by decide) (by decide))
  obtain rfl := Option.some.inj hrun
  exact absurd (congrArg MemMapEntry.baseAddrL (hagrees.entries 1 (by decide))) (by decide)

end

end AphroditeOs
