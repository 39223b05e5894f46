import Mathlib.Algebra.Order.Ring.Nat
import Mathlib.Tactic.Ring

/-!
# Blocks of bytes and the numbers stored in them

A block is a fixed number of bytes. `splice` overwrites a range of it, and `getLE`, `putLE` read
and write little-endian numbers of any width, which is how a `struct` or an array of machine
integers lies in a buffer.

Reading past the end of a block gives zero bytes, so `getLE` is total and needs no bounds; only
reading back what was written does.
-/

namespace Bytes

/-- A block of `n` bytes. -/
abbrev Block (n : ℕ) := Fin n → UInt8

variable {n : ℕ}

/-- Byte `i` of a block, zero past its end. -/
def byte (d : Block n) (i : ℕ) : UInt8 := if h : i < n then d ⟨i, h⟩ else 0

/-- Overwrite the `len` bytes from `off` on with those of `src`. -/
def splice (d : Block n) (off len : ℕ) (src : ℕ → UInt8) : Block n := fun j =>
  if off ≤ j.val ∧ j.val < off + len then src (j.val - off) else d j

theorem byte_splice (d : Block n) (off len : ℕ) (src : ℕ → UInt8) (i : ℕ) :
    byte (splice d off len src) i =
      if i < n ∧ off ≤ i ∧ i < off + len then src (i - off) else byte d i := by
  by_cases hi : i < n
  · simp [byte, splice, hi]
  · simp [byte, hi]

variable {d e : Block n} {i len off : ℕ} {src : ℕ → UInt8}

theorem byte_splice_of_not_mem (h : i < off ∨ off + len ≤ i) :
    byte (splice d off len src) i = byte d i := by
  rw [byte_splice, if_neg (by omega)]

theorem byte_splice_of_mem (hn : off + len ≤ n) (h : off ≤ i) (h' : i < off + len) :
    byte (splice d off len src) i = src (i - off) := by
  rw [byte_splice, if_pos (by omega)]

/-! ## Little-endian numbers -/

/-- The number stored in the `len` bytes from `off` on, least significant byte first. -/
def getLE (d : Block n) : (off len : ℕ) → ℕ
  | _, 0 => 0
  | off, len + 1 => (byte d off).toNat + 256 * getLE d (off + 1) len

/-- Byte `k` of a number. -/
def byteOf (v k : ℕ) : UInt8 := UInt8.ofNat (v / 256 ^ k)

/-- Store a number in the `len` bytes from `off` on. What does not fit is cut off. -/
def putLE (d : Block n) (off len v : ℕ) : Block n := splice d off len (byteOf v)

theorem getLE_congr (h : ∀ i, off ≤ i → i < off + len → byte d i = byte e i) :
    getLE d off len = getLE e off len := by
  induction len generalizing off with
  | zero => rfl
  | succ len ih =>
    rw [getLE, getLE, h off (by omega) (by omega), ih fun i hi hi' => h i (by omega) (by omega)]

theorem getLE_lt (d : Block n) (off len : ℕ) : getLE d off len < 256 ^ len := by
  induction len generalizing off with
  | zero => simp [getLE]
  | succ len ih =>
    have hb : (byte d off).toNat < 256 := (byte d off).toNat_lt
    have hr := ih (off + 1)
    rw [getLE, pow_succ]
    omega

/-- Reading `len` bytes of which byte `k` is byte `k` of `v`. -/
theorem getLE_of_byteOf {v : ℕ} (h : ∀ k < len, byte d (off + k) = byteOf v k) :
    getLE d off len = v % 256 ^ len := by
  induction len generalizing off v with
  | zero => simp [getLE, Nat.mod_one]
  | succ len ih =>
    have h0 : (byte d off).toNat = v % 256 := by
      have := h 0 (by omega)
      rw [Nat.add_zero] at this
      rw [this, byteOf, UInt8.toNat_ofNat']
      simp
    have hr : getLE d (off + 1) len = v / 256 % 256 ^ len := by
      refine ih fun k hk => ?_
      rw [show off + 1 + k = off + (k + 1) by omega, h (k + 1) (by omega), byteOf, byteOf,
        Nat.div_div_eq_div_mul, ← pow_succ']
    rw [getLE, h0, hr, pow_succ', Nat.mod_mul]

/-- **Read after write.** -/
theorem getLE_putLE_self (v : ℕ) (h : off + len ≤ n) :
    getLE (putLE d off len v) off len = v % 256 ^ len := by
  refine getLE_of_byteOf fun k hk => ?_
  rw [putLE, byte_splice_of_mem h (by omega) (by omega), Nat.add_sub_cancel_left]

/-- **Read beside a write.** -/
theorem getLE_putLE_of_disjoint {off' len' : ℕ} (v : ℕ) (h : off' + len' ≤ off ∨ off + len ≤ off') :
    getLE (putLE d off len v) off' len' = getLE d off' len' :=
  getLE_congr fun i _ _ => byte_splice_of_not_mem (by omega)

/-! ## Machine integers -/

/-- A 16-bit signed number stored at `off`. -/
def getI16 (d : Block n) (off : ℕ) : Int16 := (UInt16.ofNat (getLE d off 2)).toInt16

/-- Store a 16-bit signed number at `off`. -/
def putI16 (d : Block n) (off : ℕ) (x : Int16) : Block n := putLE d off 2 x.toUInt16.toNat

/-- A 32-bit unsigned number stored at `off`. -/
def getU32 (d : Block n) (off : ℕ) : UInt32 := UInt32.ofNat (getLE d off 4)

/-- Store a 32-bit unsigned number at `off`. -/
def putU32 (d : Block n) (off : ℕ) (x : UInt32) : Block n := putLE d off 4 x.toNat

theorem getI16_putI16_self (x : Int16) (h : off + 2 ≤ n) : getI16 (putI16 d off x) off = x := by
  have hlt : x.toUInt16.toNat < 256 ^ 2 := x.toUInt16.toNat_lt
  rw [getI16, putI16, getLE_putLE_self _ h, Nat.mod_eq_of_lt hlt, UInt16.ofNat_toNat,
    Int16.toInt16_toUInt16]

theorem getI16_congr (h : ∀ i, off ≤ i → i < off + 2 → byte d i = byte e i) :
    getI16 d off = getI16 e off := by
  rw [getI16, getI16, getLE_congr h]

theorem getU32_putU32_self (x : UInt32) (h : off + 4 ≤ n) : getU32 (putU32 d off x) off = x := by
  have hlt : x.toNat < 256 ^ 4 := x.toNat_lt
  rw [getU32, putU32, getLE_putLE_self _ h, Nat.mod_eq_of_lt hlt, UInt32.ofNat_toNat]

theorem getU32_congr (h : ∀ i, off ≤ i → i < off + 4 → byte d i = byte e i) :
    getU32 d off = getU32 e off := by
  rw [getU32, getU32, getLE_congr h]

section Disjoint

variable {d : Block n} {off off' len : ℕ}

theorem getI16_splice_of_disjoint (h : off' + 2 ≤ off ∨ off + len ≤ off') :
    getI16 (splice d off len src) off' = getI16 d off' :=
  getI16_congr fun _ _ _ => byte_splice_of_not_mem (by omega)

theorem getU32_splice_of_disjoint (h : off' + 4 ≤ off ∨ off + len ≤ off') :
    getU32 (splice d off len src) off' = getU32 d off' :=
  getU32_congr fun _ _ _ => byte_splice_of_not_mem (by omega)

theorem getI16_putI16_of_disjoint {x : Int16} (h : off' + 2 ≤ off ∨ off + 2 ≤ off') :
    getI16 (putI16 d off x) off' = getI16 d off' :=
  getI16_splice_of_disjoint h

theorem getI16_putU32_of_disjoint {x : UInt32} (h : off' + 2 ≤ off ∨ off + 4 ≤ off') :
    getI16 (putU32 d off x) off' = getI16 d off' :=
  getI16_splice_of_disjoint h

theorem getU32_putU32_of_disjoint {x : UInt32} (h : off' + 4 ≤ off ∨ off + 4 ≤ off') :
    getU32 (putU32 d off x) off' = getU32 d off' :=
  getU32_splice_of_disjoint h

end Disjoint

/-- Reading four bytes of which byte `k` is byte `k` of `x`. -/
theorem getU32_of_byteOf {x : UInt32} (h : ∀ k < 4, byte d (off + k) = byteOf x.toNat k) :
    getU32 d off = x := by
  have hlt : x.toNat < 256 ^ 4 := x.toNat_lt
  rw [getU32, getLE_of_byteOf h, Nat.mod_eq_of_lt hlt, UInt32.ofNat_toNat]

/-- An all-zero word is zero. -/
theorem getU32_zero (off : ℕ) : getU32 (fun _ => 0 : Block n) off = 0 := by
  refine getU32_of_byteOf fun k _ => ?_
  have : byte (fun _ => 0 : Block n) (off + k) = 0 := by simp [byte]
  rw [this, byteOf]
  simp

theorem getI16_zero (off : ℕ) : getI16 (fun _ => 0 : Block n) off = 0 := by
  have hb : ∀ k < 2, byte (fun _ => 0 : Block n) (off + k) = byteOf 0 k := fun k _ => by
    simp [byte, byteOf]
  rw [getI16, getLE_of_byteOf hb]
  rfl

/-! ## Bits -/

/-- The mask of bit `k` in its byte. -/
def mask (k : ℕ) : UInt8 := 1 <<< UInt8.ofNat (k % 8)

/-- Bit `k` of a block, counted from the least significant bit of byte 0. -/
def bit (d : Block n) (k : ℕ) : Bool := byte d (k / 8) &&& mask k != 0

/-- Set or clear bit `k`. -/
def putBit (d : Block n) (k : ℕ) (v : Bool) : Block n := splice d (k / 8) 1 fun _ =>
  if v then byte d (k / 8) ||| mask k else byte d (k / 8) &&& ~~~ mask k

theorem getLsbD_mask (k : ℕ) (hi : i < 8) : (mask k).toBitVec.getLsbD i = decide (i = k % 8) := by
  have key : ∀ r < 8, ∀ i < 8,
      (1 <<< UInt8.ofNat r : UInt8).toBitVec.getLsbD i = decide (i = r) := by decide
  exact key (k % 8) (by omega) i hi

/-- What the mask of bit `j` tells about a byte. -/
theorem and_mask_bne_zero (x : UInt8) (j : ℕ) :
    (x &&& mask j != 0) = x.toBitVec.getLsbD (j % 8) := by
  have hj : j % 8 < 8 := by omega
  rw [Bool.eq_iff_iff, bne_iff_ne]
  constructor
  · intro hne
    by_contra hbit
    refine hne (UInt8.toBitVec_inj.mp (BitVec.eq_of_getLsbD_eq fun i hi => ?_))
    rw [UInt8.toBitVec_and, BitVec.getLsbD_and, getLsbD_mask j hi]
    by_cases hij : i = j % 8
    · subst hij
      simpa using hbit
    · simp [hij]
  · intro hbit hzero
    have := congrArg (fun y => y.toBitVec.getLsbD (j % 8)) hzero
    simp [getLsbD_mask j hj, hbit] at this

/-- One byte, with bit `k` set or cleared, seen through the mask of bit `j`. -/
theorem mask_put (x : UInt8) (k j : ℕ) (v : Bool) :
    ((if v then x ||| mask k else x &&& ~~~ mask k) &&& mask j != 0) =
      if j % 8 = k % 8 then v else (x &&& mask j != 0) := by
  have hj : j % 8 < 8 := by omega
  have hmask := getLsbD_mask k hj
  rw [and_mask_bne_zero, and_mask_bne_zero]
  cases v with
  | true =>
    rw [if_pos rfl, UInt8.toBitVec_or, BitVec.getLsbD_or, hmask]
    by_cases hjk : j % 8 = k % 8 <;> simp [hjk]
  | false =>
    rw [if_neg (by decide), UInt8.toBitVec_and, BitVec.getLsbD_and, UInt8.toBitVec_not,
      BitVec.getLsbD_not, hmask]
    by_cases hjk : j % 8 = k % 8 <;> simp [hjk, hj]

/-- **Read a bit after writing one.** -/
theorem bit_putBit {k : ℕ} (h : k < 8 * n) (v : Bool) (j : ℕ) :
    bit (putBit d k v) j = if j = k then v else bit d j := by
  by_cases hjk : j / 8 = k / 8
  · have hmem : byte (putBit d k v) (j / 8) =
        if v then byte d (k / 8) ||| mask k else byte d (k / 8) &&& ~~~ mask k := by
      rw [putBit, byte_splice_of_mem (by omega) (by omega) (by omega)]
    have hiff : j = k ↔ j % 8 = k % 8 := by omega
    rw [bit, hmem, mask_put, bit, hjk]
    simp only [hiff]
  · have hne : j ≠ k := by rintro rfl; exact hjk rfl
    rw [bit, putBit, byte_splice_of_not_mem (by omega), if_neg hne, bit]

end Bytes
