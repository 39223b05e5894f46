import Mathlib.Data.Fin.Basic
import Mathlib.Data.Int.ModEq
import Mathlib.Logic.Function.Basic

/-!
# A queue in a ring with counters that wrap

A ring of `n` places and two counters modulo `m`, where `n` divides `m`: the counters say where the
next element is put and taken, and go on counting across the wrap. `Window` relates them to the
queue of the elements that have been put and not yet taken.
-/

/-- The elements `l` are in the ring between the counters `head` and `tail`. -/
structure Window {α : Type} {n : ℕ} [NeZero n] (m : ℕ) (ring : Fin n → α) (head tail : ℕ)
    (l : List α) : Prop where
  head_lt : head < m
  tail_eq : tail = (head + l.length) % m
  length_le : l.length ≤ n
  get : ∀ k < l.length, l[k]? = some (ring (Fin.ofNat n (head + k)))

namespace Window

open List

variable {α : Type} {n m head tail : ℕ} [NeZero n] {ring : Fin n → α} {l : List α} {x : α}

theorem ofNat_eq_iff {a b : ℕ} : Fin.ofNat n a = Fin.ofNat n b ↔ a % n = b % n := by
  rw [Fin.ext_iff]
  rfl

theorem ofNat_mod (h : n ∣ m) (a : ℕ) : Fin.ofNat n (a % m) = Fin.ofNat n a :=
  ofNat_eq_iff.mpr (Nat.mod_mod_of_dvd a h)

theorem nil (h : head < m) : Window m ring head head [] where
  head_lt := h
  tail_eq := (Nat.mod_eq_of_lt h).symm
  length_le := Nat.zero_le n
  get _ hk := absurd hk (Nat.not_lt_zero _)

section

variable (h : Window m ring head tail l)
include h

/-- The counters tell whether there is an element. -/
theorem eq_iff_nil (hnm : n < m) : head = tail ↔ l = [] := by
  have hlt := h.head_lt
  have hlen := h.length_le
  rw [h.tail_eq, ← length_eq_zero_iff]
  constructor
  · intro heq
    rcases Nat.lt_or_ge (head + l.length) m with hsum | hsum
    · rw [Nat.mod_eq_of_lt hsum] at heq
      omega
    · rw [Nat.mod_eq_sub_mod hsum, Nat.mod_eq_of_lt (by omega)] at heq
      omega
  · intro hzero
    rw [hzero, Nat.add_zero, Nat.mod_eq_of_lt hlt]

/-- Writing where the next element goes disturbs no element. -/
theorem write (hd : n ∣ m) (hlen : l.length < n) (x : α) :
    Window m (Function.update ring (Fin.ofNat n tail) x) head tail l := by
  refine ⟨h.head_lt, h.tail_eq, h.length_le, fun k hk => ?_⟩
  have hne : Fin.ofNat n (head + k) ≠ Fin.ofNat n tail := by
    rw [h.tail_eq, ofNat_mod hd]
    intro heq
    -- two places less than `n` apart are different places
    have hmod : n ∣ head + l.length - (head + k) :=
      (Nat.modEq_iff_dvd' (by omega)).mp (ofNat_eq_iff.mp heq)
    have hle := Nat.le_of_dvd (by omega) hmod
    omega
  rw [Function.update_of_ne hne]
  exact h.get k hk

/-- What stands at the tail becomes an element. -/
theorem advance (hd : n ∣ m) (hlen : l.length < n)
    (hx : ring (Fin.ofNat n tail) = x) : Window m ring head ((tail + 1) % m) (l ++ [x]) := by
  refine ⟨h.head_lt, ?_, ?_, fun k hk => ?_⟩
  · rw [h.tail_eq, Nat.mod_add_mod, length_append, length_singleton, Nat.add_assoc]
  · rw [length_append, length_singleton]
    exact hlen
  · rw [length_append, length_singleton] at hk
    by_cases hkl : k = l.length
    · have hplace : Fin.ofNat n (head + l.length) = Fin.ofNat n tail := by
        rw [h.tail_eq, ofNat_mod hd]
      rw [hkl, getElem?_concat_length, hplace, hx]
    · have hklt : k < l.length := by omega
      rw [getElem?_append_left hklt]
      exact h.get k hklt

/-- **An element is put into the ring.** -/
theorem push (hd : n ∣ m) (hlen : l.length < n) (x : α) :
    Window m (Function.update ring (Fin.ofNat n tail) x) head ((tail + 1) % m) (l ++ [x]) :=
  (h.write hd hlen x).advance hd hlen (Function.update_self ..)

end

/-- **The first element is taken.** -/
theorem pop (h : Window m ring head tail (x :: l)) (hd : n ∣ m) :
    ring (Fin.ofNat n head) = x ∧ Window m ring ((head + 1) % m) tail l := by
  have hpos : 0 < m := (Nat.zero_le head).trans_lt h.head_lt
  refine ⟨?_, Nat.mod_lt _ hpos, ?_, ?_, fun k hk => ?_⟩
  · have h0 := h.get 0 (by simp)
    rw [getElem?_cons_zero, Nat.add_zero] at h0
    exact (Option.some.inj h0).symm
  · rw [h.tail_eq, Nat.mod_add_mod, length_cons, Nat.add_assoc, Nat.add_comm 1]
  · have := h.length_le
    rw [length_cons] at this
    omega
  · have hget := h.get (k + 1) (by rw [length_cons]; omega)
    rw [getElem?_cons_succ] at hget
    have hplace : Fin.ofNat n ((head + 1) % m + k) = Fin.ofNat n (head + (k + 1)) := by
      rw [← ofNat_mod hd ((head + 1) % m + k), Nat.mod_add_mod, ofNat_mod hd, Nat.add_assoc,
        Nat.add_comm 1]
    rw [hget, hplace]

/-- **The last element is taken back.** It stands before the tail. -/
theorem unpush (h : Window m ring head tail (l ++ [x])) (hd : n ∣ m) :
    ring (Fin.ofNat n (m - 1 + tail)) = x ∧ Window m ring head ((m - 1 + tail) % m) l := by
  have hpos : 0 < m := (Nat.zero_le head).trans_lt h.head_lt
  have hlen : (l ++ [x]).length = l.length + 1 := by simp
  have htail : (m - 1 + tail) % m = (head + l.length) % m := by
    rw [h.tail_eq, hlen, Nat.add_mod_mod,
      show m - 1 + (head + (l.length + 1)) = head + l.length + m by omega, Nat.add_mod_right]
  refine ⟨?_, h.head_lt, htail, ?_, fun k hk => ?_⟩
  · have hget := h.get l.length (by omega)
    rw [getElem?_concat_length] at hget
    rw [← ofNat_mod hd, htail, ofNat_mod hd]
    exact (Option.some.inj hget).symm
  · have := h.length_le
    omega
  · rw [← h.get k (by omega), getElem?_append_left hk]

/-- The counters tell how many elements there are. -/
theorem count (h : Window m ring head tail l) (hnm : n < m) : (m - head + tail) % m = l.length := by
  have hlt := h.head_lt
  have hlen := h.length_le
  rw [h.tail_eq, Nat.add_mod_mod, show m - head + (head + l.length) = l.length + m by omega,
    Nat.add_mod_right, Nat.mod_eq_of_lt (by omega)]

/-- The ring and its counters determine the elements. -/
theorem unique {l' : List α} (h : Window m ring head tail l) (h' : Window m ring head tail l')
    (hnm : n < m) : l = l' := by
  have hlen : l.length = l'.length := (h.count hnm).symm.trans (h'.count hnm)
  refine ext_getElem? fun k => ?_
  by_cases hk : k < l.length
  · rw [h.get k hk, h'.get k (hlen ▸ hk)]
  · rw [getElem?_eq_none (by omega), getElem?_eq_none (by omega)]

end Window
