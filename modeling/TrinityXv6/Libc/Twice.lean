import Mathlib.Data.Nat.Digits.Lemmas

/-!
# What the kernel and the user library both have

`printint` and `memmove` are written twice. The two of `printint` differ in the characters for
digits above nine, the two of `memmove` in when they copy from the end.
-/

namespace TrinityXv6

namespace Libc

open Function (update update_of_ne update_self)

/-! ## `printint` -/

/-- The bases that `printint` is called with. -/
abbrev Base := {b : ℕ // b = 10 ∨ b = 16}

theorem Base.one_lt (base : Base) : 1 < base.1 := by
  rcases base.2 with h | h <;> omega

theorem Base.div_lt (base : Base) {x : ℕ} (h : ¬ x / base = 0) : x / base < x :=
  Nat.div_lt_self (Nat.pos_of_ne_zero fun hx => h (by rw [hx, Nat.zero_div])) base.one_lt

/-- `buf[i++] = c` in a buffer of 20 characters, of which `i` are set. -/
def store (buf : List Char) (c : Char) : Option (List Char) :=
  if buf.length < 20 then some (buf ++ [c]) else none

/-- The loop of `printint`: the digits of `x`, the last one first. -/
def fill (digits : List Char) (base : Base) (x : ℕ) (buf : List Char) : Option (List Char) := do
  let buf ← store buf (digits.getD (x % base) ' ')
  if x / base = 0 then some buf else fill digits base (x / base) buf
termination_by x
decreasing_by exact base.div_lt ‹_›

/-- What `printint` emits, or `none` if it writes outside its buffer. Negation wraps around. -/
def printint (digits : List Char) (xx : BitVec 64) (base : Base) (sign : Bool) :
    Option (List Char) := do
  let neg : Bool := sign && xx.toInt < 0
  let buf ← fill digits base (if neg then -xx else xx).toNat []
  let buf ← if neg then store buf '-' else some buf
  some buf.reverse

def Kernel.printint := Libc.printint "0123456789abcdef".toList

def User.printint := Libc.printint "0123456789ABCDEF".toList

/-- The number that the argument stands for. -/
def value (xx : BitVec 64) (sign : Bool) : ℤ := if sign then xx.toInt else xx.toNat

/-- The numeral of a number. -/
def numeral (base : ℕ) (v : ℤ) : List Char :=
  (if v < 0 then ['-'] else []) ++ Nat.toDigits base v.natAbs

/-- The negative numbers are those that `printint` negates; there are `2 ^ 63` of them. -/
theorem value_cases (xx : BitVec 64) (sign : Bool) :
    (value xx sign < 0 ∧ (-xx).toNat = (value xx sign).natAbs ∧ (value xx sign).natAbs ≤ 2 ^ 63) ∨
    (¬ value xx sign < 0 ∧ xx.toNat = (value xx sign).natAbs) := by
  cases sign with
  | false => exact .inr ⟨not_lt.mpr (Int.natCast_nonneg _), rfl⟩
  | true =>
    have hint := xx.toInt_eq_toNat_cond
    have hvalue : value xx true = xx.toInt := rfl
    rw [hvalue, BitVec.toNat_neg]
    split at hint <;> omega

section

variable {digits : List Char} {f : Char → Char} (base : Base)
variable (hf : ∀ d < 16, digits.getD d ' ' = f (Nat.digitChar d))
include hf

theorem fill_eq (x : ℕ) (buf : List Char) (hlen : buf.length + (Nat.toDigits base x).length ≤ 20) :
    fill digits base x buf = some (buf ++ ((Nat.toDigits base x).map f).reverse) := by
  induction x using Nat.strong_induction_on generalizing buf with
  | _ x ih =>
    have hd : x % base < 16 := by
      have := Nat.mod_lt x (Nat.zero_lt_of_lt base.one_lt)
      rcases base.2 with h | h <;> omega
    rw [Nat.toDigits_eq_if base.one_lt] at hlen ⊢
    rw [fill, hf _ hd]
    by_cases hx : x < base
    · rw [if_pos hx] at hlen ⊢
      rw [store, if_pos (Nat.lt_of_succ_le hlen)]
      simp [Nat.div_eq_of_lt hx, Nat.mod_eq_of_lt hx]
    · have hne : ¬ x / base = 0 := (Nat.div_pos (not_lt.mp hx) (Nat.zero_lt_of_lt base.one_lt)).ne'
      rw [if_neg hx, List.length_append, List.length_singleton] at hlen
      have hnext := ih (x / base) (base.div_lt hne) (buf ++ [f (x % base).digitChar])
        (by rw [List.length_append, List.length_singleton]; omega)
      rw [if_neg hx, store, if_pos (by omega)]
      simp [hne, hnext]

theorem printint_eq (hminus : f '-' = '-') (xx : BitVec 64) (sign : Bool) :
    printint digits xx base sign = some ((numeral base (value xx sign)).map f) := by
  have hpow : 2 ^ 64 ≤ base.1 ^ 20 ∧ 2 ^ 63 < base.1 ^ 19 := by
    rcases base.2 with h | h <;> rw [h] <;> norm_num
  have hneg : (sign && decide (xx.toInt < 0)) = decide (value xx sign < 0) := by
    cases sign <;> simp [value]
  rw [printint, hneg, numeral]
  rcases value_cases xx sign with ⟨hv, habs, hle⟩ | ⟨hv, habs⟩
  · have hlen : (Nat.toDigits base (value xx sign).natAbs).length ≤ 19 :=
      (Nat.length_toDigits_le_iff base.one_lt (by decide)).mpr (by omega)
    have hfill := fill_eq base hf (value xx sign).natAbs [] (by rw [List.length_nil]; omega)
    simp [hv, habs, hfill, store, hminus, Nat.lt_succ_of_le hlen]
  · have hlen : (Nat.toDigits base (value xx sign).natAbs).length ≤ 20 :=
      (Nat.length_toDigits_le_iff base.one_lt (by decide)).mpr (by omega)
    simp [hv, habs, fill_eq base hf _ [] (by rwa [List.length_nil, Nat.zero_add])]

end

/-- **Numbers.** -/
theorem printint_numeral (xx : BitVec 64) (base : Base) (sign : Bool) :
    Kernel.printint xx base sign = some (numeral base (value xx sign)) ∧
    User.printint xx base sign = some ((numeral base (value xx sign)).map Char.toUpper) := by
  constructor
  · rw [Kernel.printint, printint_eq (f := id) base (by decide) rfl, List.map_id]
  · exact printint_eq base (by decide) (by decide) xx sign

/-! ## `memmove` -/

abbrev Memory := ℕ → UInt8

/-- `while (n-- > 0) *d++ = *s++`. -/
def copyUp (m : Memory) (d s : ℕ) : (n : ℕ) → Memory
  | 0 => m
  | n + 1 => copyUp (update m d (m s)) (d + 1) (s + 1) n

/-- `while (n-- > 0) *--d = *--s`. -/
def copyDown (m : Memory) (d s : ℕ) : (n : ℕ) → Memory
  | 0 => m
  | n + 1 => copyDown (update m (d - 1) (m (s - 1))) (d - 1) (s - 1) n

def Kernel.memmove (m : Memory) (dst src n : ℕ) : Memory :=
  if n = 0 then m
  else if src < dst ∧ src + n > dst then copyDown m (dst + n) (src + n) n
  else copyUp m dst src n

/-- Here the length is an `int`. -/
def User.memmove (m : Memory) (vdst vsrc : ℕ) (n : ℤ) : Memory :=
  if vsrc > vdst then copyUp m vdst vsrc n.toNat
  else copyDown m (vdst + n.toNat) (vsrc + n.toNat) n.toNat

/-- `m'` is `m` with `n` bytes of `m` copied from `s` to `d`. -/
structure Copied (m : Memory) (d s n : ℕ) (m' : Memory) : Prop where
  inside : ∀ i < n, m' (d + i) = m (s + i)
  outside : ∀ a, a < d ∨ d + n ≤ a → m' a = m a

variable {m : Memory} {d s n : ℕ}

theorem copyUp_copied (h : d ≤ s ∨ s + n ≤ d) : Copied m d s n (copyUp m d s n) := by
  induction n generalizing m d s with
  | zero => exact ⟨fun i hi => absurd hi (Nat.not_lt_zero i), fun a _ => rfl⟩
  | succ n ih =>
    obtain ⟨hin, hout⟩ := ih (d := d + 1) (s := s + 1) (by omega)
    refine ⟨fun i hi => ?_, fun a ha => ?_⟩
    · cases i with
      | zero => exact (hout d (by omega)).trans (update_self ..)
      | succ i =>
        have := hin i (by omega)
        rw [update_of_ne (by omega)] at this
        rwa [Nat.add_right_comm d, Nat.add_right_comm s] at this
    · rw [copyUp, hout a (by omega), update_of_ne (by omega)]

theorem copyDown_copied (h : s ≤ d ∨ d + n ≤ s) :
    Copied m d s n (copyDown m (d + n) (s + n) n) := by
  induction n generalizing m with
  | zero => exact ⟨fun i hi => absurd hi (Nat.not_lt_zero i), fun a _ => rfl⟩
  | succ n ih =>
    obtain ⟨hin, hout⟩ := ih (by omega)
    refine ⟨fun i hi => ?_, fun a ha => ?_⟩
    · rcases Nat.lt_succ_iff_lt_or_eq.mp hi with hi | rfl
      · exact (hin i hi).trans (update_of_ne (by omega) ..)
      · exact (hout (d + i) (by omega)).trans (update_self ..)
    · exact (hout a (by omega)).trans (update_of_ne (by omega) ..)

/-- **A snapshot.** -/
theorem memmove_snapshot (m : Memory) (dst src : ℕ) :
    (∀ n, Copied m dst src n (Kernel.memmove m dst src n)) ∧
    ∀ n : ℤ, Copied m dst src n.toNat (User.memmove m dst src n) := by
  refine ⟨fun n => ?_, fun n => ?_⟩
  · rw [Kernel.memmove]
    split_ifs with hn h
    · exact hn ▸ copyUp_copied (by omega)
    · exact copyDown_copied (by omega)
    · exact copyUp_copied (by omega)
  · rw [User.memmove]
    split_ifs with h
    · exact copyUp_copied (by omega)
    · exact copyDown_copied (by omega)

end Libc

end TrinityXv6
