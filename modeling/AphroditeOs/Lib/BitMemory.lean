import Mathlib

/-!
# Bit-addressed memory

Memory is one Boolean a bit: bit `8 * a + k` is bit `k` of the byte at address `a`, so a
little-endian double word at `a` holds bits `8 * a` to `8 * a + 31`.  A bitmap in memory and a
byte-wise fill of a region that overlaps it are then two views of the same function.
-/

abbrev BitMemory := Nat → Bool

namespace BitMemory

/-- The 32-bit word at byte address `addr`. -/
def word32 (mem : BitMemory) (addr : Nat) : BitVec 32 :=
  BitVec.ofFnLE fun j ↦ mem (8 * addr + j)

theorem getLsbD_word32 (mem : BitMemory) (addr : Nat) {j : Nat} (hj : j < 32) :
    (mem.word32 addr).getLsbD j = mem (8 * addr + j) := by
  rw [word32, BitVec.getLsbD_ofFnLE, dif_pos hj]

theorem word32_eq_allOnes_iff (mem : BitMemory) (addr : Nat) :
    mem.word32 addr = BitVec.allOnes 32 ↔ ∀ j < 32, mem (8 * addr + j) = true := by
  constructor
  · intro h j hj
    rw [← getLsbD_word32 mem addr hj, h, BitVec.getLsbD_allOnes, decide_eq_true hj]
  · intro h
    apply BitVec.eq_of_getLsbD_eq
    intro j hj
    rw [getLsbD_word32 mem addr hj, h j hj, BitVec.getLsbD_allOnes, decide_eq_true hj]

/-- The 32-bit word at byte address `addr` set to `v`. -/
def store32 (mem : BitMemory) (addr : Nat) (v : BitVec 32) : BitMemory := fun n ↦
  if 8 * addr ≤ n ∧ n < 8 * (addr + 4) then v.getLsbD (n - 8 * addr) else mem n

theorem word32_congr {mem mem' : BitMemory} {addr : Nat}
    (h : ∀ j < 32, mem (8 * addr + j) = mem' (8 * addr + j)) : mem.word32 addr = mem'.word32 addr := by
  apply BitVec.eq_of_getLsbD_eq
  intro j hj
  rw [getLsbD_word32 mem addr hj, getLsbD_word32 mem' addr hj, h j hj]

theorem store32_of_outside {mem : BitMemory} {addr n : Nat} {v : BitVec 32}
    (h : n < 8 * addr ∨ 8 * (addr + 4) ≤ n) : mem.store32 addr v n = mem n := by
  unfold store32
  rw [if_neg (by omega)]

theorem word32_store32_self (mem : BitMemory) (addr : Nat) (v : BitVec 32) :
    (mem.store32 addr v).word32 addr = v := by
  apply BitVec.eq_of_getLsbD_eq
  intro j hj
  rw [getLsbD_word32 _ _ hj, store32, if_pos (by omega), Nat.add_sub_cancel_left]

theorem word32_store32_disjoint (mem : BitMemory) {addr addr' : Nat} (v : BitVec 32)
    (h : addr' + 4 ≤ addr ∨ addr + 4 ≤ addr') :
    (mem.store32 addr v).word32 addr' = mem.word32 addr' := by
  apply BitVec.eq_of_getLsbD_eq
  intro j hj
  rw [getLsbD_word32 _ _ hj, getLsbD_word32 _ _ hj, store32, if_neg (by omega)]

/-- `size` bytes from `addr` on set to `c`. -/
def fill (mem : BitMemory) (addr : Nat) (c : BitVec 8) (size : Nat) : BitMemory := fun n ↦
  if 8 * addr ≤ n ∧ n < 8 * (addr + size) then c.getLsbD (n % 8) else mem n

theorem fill_outside {mem : BitMemory} {addr size n : Nat} {c : BitVec 8}
    (h : n < 8 * addr ∨ 8 * (addr + size) ≤ n) : mem.fill addr c size n = mem n := by
  unfold fill
  rw [if_neg (by omega)]

theorem fill_inside {mem : BitMemory} {addr size n : Nat} {c : BitVec 8}
    (hlo : 8 * addr ≤ n) (hhi : n < 8 * (addr + size)) :
    mem.fill addr c size n = c.getLsbD (n % 8) := by
  unfold fill
  rw [if_pos ⟨hlo, hhi⟩]

theorem fill_ones_inside {mem : BitMemory} {addr size n : Nat}
    (hlo : 8 * addr ≤ n) (hhi : n < 8 * (addr + size)) :
    mem.fill addr 0xFF#8 size n = true := by
  rw [fill_inside hlo hhi, show 0xFF#8 = BitVec.allOnes 8 from rfl, BitVec.getLsbD_allOnes,
    decide_eq_true (Nat.mod_lt _ (by decide))]

theorem fill_zero_inside {mem : BitMemory} {addr size n : Nat}
    (hlo : 8 * addr ≤ n) (hhi : n < 8 * (addr + size)) :
    mem.fill addr 0x00#8 size n = false := by
  rw [fill_inside hlo hhi]
  exact BitVec.getLsbD_zero

/-! ## Bytes -/

/-- The byte at address `addr`. -/
def byte (mem : BitMemory) (addr : Nat) : BitVec 8 := BitVec.ofFnLE fun j ↦ mem (8 * addr + j)

theorem getLsbD_byte (mem : BitMemory) (addr : Nat) {j : Nat} (hj : j < 8) :
    (mem.byte addr).getLsbD j = mem (8 * addr + j) := by
  rw [byte, BitVec.getLsbD_ofFnLE, dif_pos hj]

theorem byte_congr {mem mem' : BitMemory} {addr : Nat}
    (h : ∀ j < 8, mem (8 * addr + j) = mem' (8 * addr + j)) : mem.byte addr = mem'.byte addr := by
  apply BitVec.eq_of_getLsbD_eq
  intro j hj
  rw [getLsbD_byte mem addr hj, getLsbD_byte mem' addr hj, h j hj]

theorem byte_fill (mem : BitMemory) (addr : Nat) (c : BitVec 8) (size a : Nat) :
    (mem.fill addr c size).byte a = if addr ≤ a ∧ a < addr + size then c else mem.byte a := by
  apply BitVec.eq_of_getLsbD_eq
  intro j hj
  rw [getLsbD_byte _ _ hj]
  by_cases hin : addr ≤ a ∧ a < addr + size
  · rw [if_pos hin, fill_inside (by omega) (by omega)]
    congr 1
    omega
  · rw [if_neg hin, fill_outside (by omega), getLsbD_byte _ _ hj]

theorem byte_store32_of_outside {mem : BitMemory} {addr a : Nat} {v : BitVec 32}
    (h : a < addr ∨ addr + 4 ≤ a) : (mem.store32 addr v).byte a = mem.byte a :=
  byte_congr fun _ _ ↦ store32_of_outside (by omega)

theorem bit_congr_byte {mem mem' : BitMemory} {n : Nat} (h : mem.byte (n / 8) = mem'.byte (n / 8)) :
    mem n = mem' n := by
  have hn : 8 * (n / 8) + n % 8 = n := Nat.div_add_mod n 8
  rw [← hn, ← getLsbD_byte mem _ (Nat.mod_lt n (by decide)), h,
    getLsbD_byte mem' _ (Nat.mod_lt n (by decide))]

theorem word32_congr_byte {mem mem' : BitMemory} {addr : Nat}
    (h : ∀ a, addr ≤ a → a < addr + 4 → mem.byte a = mem'.byte a) :
    mem.word32 addr = mem'.word32 addr :=
  word32_congr fun _ _ ↦ bit_congr_byte (h _ (by omega) (by omega))

/-- `count` bytes from `addr` on. -/
def bytes (mem : BitMemory) (addr : Nat) : Nat → List (BitVec 8)
  | 0 => []
  | count + 1 => mem.byte addr :: mem.bytes (addr + 1) count

theorem take_bytes (mem : BitMemory) {addr n count : Nat} (h : n ≤ count) :
    (mem.bytes addr count).take n = mem.bytes addr n := by
  induction count generalizing addr n with
  | zero =>
    obtain rfl := Nat.le_zero.mp h
    rfl
  | succ count ih =>
    cases n with
    | zero => rfl
    | succ n => rw [bytes, List.take_succ_cons, ih (Nat.le_of_succ_le_succ h), bytes]

theorem drop_bytes (mem : BitMemory) {addr m count : Nat} :
    (mem.bytes addr count).drop m = mem.bytes (addr + m) (count - m) := by
  induction count generalizing addr m with
  | zero => rw [Nat.zero_sub, bytes, bytes, List.drop_nil]
  | succ count ih =>
    cases m with
    | zero => rfl
    | succ m => rw [bytes, List.drop_succ_cons, ih, Nat.succ_sub_succ, Nat.add_assoc, Nat.add_comm 1]

theorem bytes_congr {mem mem' : BitMemory} {addr count : Nat}
    (h : ∀ a, addr ≤ a → a < addr + count → mem.byte a = mem'.byte a) :
    mem.bytes addr count = mem'.bytes addr count := by
  induction count generalizing addr with
  | zero => rfl
  | succ count ih =>
    rw [bytes, bytes, h addr le_rfl (by omega), ih fun a ha ha' ↦ h a (by omega) (by omega)]

/-- The bytes of a double word, the lowest first. -/
theorem word32_eq_append (mem : BitMemory) (addr : Nat) : mem.word32 addr =
    mem.byte (addr + 3) ++ mem.byte (addr + 2) ++ mem.byte (addr + 1) ++ mem.byte addr := by
  apply BitVec.eq_of_getLsbD_eq
  intro j hj
  rw [getLsbD_word32 mem addr hj, BitVec.getLsbD_append, BitVec.getLsbD_append,
    BitVec.getLsbD_append]
  split_ifs
  · rw [getLsbD_byte mem _ (by omega)]
  · rw [getLsbD_byte mem _ (by omega)]
    exact congrArg mem (by omega)
  · rw [getLsbD_byte mem _ (by omega)]
    exact congrArg mem (by omega)
  · rw [getLsbD_byte mem _ (by omega)]
    exact congrArg mem (by omega)

end BitMemory
