import Mathlib.Algebra.BigOperators.Fin
import Mathlib.Algebra.BigOperators.Group.Finset.Piecewise
import Mathlib.Data.Fin.SuccPred
import Mathlib.Tactic.Abel

/-!
# Radix trees in numbered nodes

A tree of fixed depth in which every node is stored somewhere, under a number, and has `b` entries.
The entries of the nodes at level `0` are values, those above are nodes or missing. A key is a
number, and the entry it selects at level `k` is its digit of weight `b ^ k`.
-/

namespace Radix

open Function (update update_of_ne update_self)

/-- A node with its number and its entries. -/
structure Node (b : ℕ) (β : Type) where
  page : ℕ
  entry : Fin b → Option β

/-- Trees whose root is at level `k`. -/
def Tree (b : ℕ) (α : Type) : ℕ → Type
  | 0 => Node b α
  | k + 1 => Node b (Tree b α k)

variable {b : ℕ} [NeZero b] {α : Type}

/-- The entry that key `v` selects at level `k`. -/
def digit (b : ℕ) [NeZero b] (k v : ℕ) : Fin b := Fin.ofNat b (v / b ^ k)

/-- The number of the root. -/
def root : (k : ℕ) → Tree b α k → ℕ
  | 0, t => t.page
  | _ + 1, t => t.page

/-- The tree with no entries. -/
def empty (b : ℕ) (α : Type) : (k : ℕ) → ℕ → Tree b α k
  | 0, x => ⟨x, fun _ => none⟩
  | _ + 1, x => ⟨x, fun _ => none⟩

/-- The value under a key. -/
def get : (k : ℕ) → Tree b α k → ℕ → Option α
  | 0, t, v => t.entry (digit b 0 v)
  | k + 1, t, v => (t.entry (digit b (k + 1) v)).bind fun c => get k c v

/-- Whether all nodes above the value of a key are there. -/
def Reaches : (k : ℕ) → Tree b α k → ℕ → Prop
  | 0, _, _ => True
  | k + 1, t, v => ∃ c, t.entry (digit b (k + 1) v) = some c ∧ Reaches k c v

/-- Put a value under a key, or remove it, if the nodes above it are there. -/
def set : (k : ℕ) → Tree b α k → ℕ → Option α → Tree b α k
  | 0, t, v, o => ⟨t.page, update t.entry (digit b 0 v) o⟩
  | k + 1, t, v, o =>
    match t.entry (digit b (k + 1) v) with
    | none => t
    | some c => ⟨t.page, update t.entry (digit b (k + 1) v) (some (set k c v o))⟩

/-- The numbers of all nodes. -/
def nodes : (k : ℕ) → Tree b α k → Multiset ℕ
  | 0, t => {t.page}
  | k + 1, t => t.page ::ₘ ∑ i, (t.entry i).elim 0 (nodes k)

/-! ## Keys -/

/-- Two keys select the same entry at all levels up to `k`. -/
def Agree (b : ℕ) [NeZero b] (k v w : ℕ) : Prop := ∀ j ≤ k, digit b j v = digit b j w

theorem digit_eq_iff {k v w : ℕ} : digit b k v = digit b k w ↔ v / b ^ k % b = w / b ^ k % b := by
  rw [digit, digit, Fin.ext_iff, Fin.val_ofNat, Fin.val_ofNat]

/-- Keys with the same digits are equal. -/
theorem mod_eq_of_agree {k v w : ℕ} (h : Agree b k v w) : v % b ^ (k + 1) = w % b ^ (k + 1) := by
  induction k with
  | zero =>
    have h₀ := digit_eq_iff.mp (h 0 le_rfl)
    simpa using h₀
  | succ k ih =>
    have hk := digit_eq_iff.mp (h (k + 1) le_rfl)
    have hrest := ih fun j hj => h j (by omega)
    rw [pow_succ b (k + 1), Nat.mod_mul, Nat.mod_mul, hk, hrest]

theorem eq_of_agree {k v w : ℕ} (h : Agree b k v w) (hv : v < b ^ (k + 1)) (hw : w < b ^ (k + 1)) :
    v = w := by
  have := mod_eq_of_agree h
  rwa [Nat.mod_eq_of_lt hv, Nat.mod_eq_of_lt hw] at this

/-! ## Values -/

variable {k v w : ℕ} {t : Tree b α k} {o : Option α}

@[simp] theorem get_empty (k x v : ℕ) : get k (empty b α k x) v = none := by
  cases k <;> rfl

/-- A key that has a value is reached. -/
theorem reaches_of_get {a : α} (h : get k t v = some a) : Reaches k t v := by
  induction k with
  | zero => trivial
  | succ k ih =>
    obtain ⟨c, hc, hget⟩ := Option.bind_eq_some_iff.mp h
    exact ⟨c, hc, ih hget⟩

theorem get_set_self (h : Reaches k t v) : get k (set k t v o) v = o := by
  induction k with
  | zero => exact update_self ..
  | succ k ih =>
    obtain ⟨c, hc, hr⟩ := h
    rw [set, hc, get]
    dsimp only
    rw [update_self]
    exact ih hr

theorem get_set_of_not_agree (h : ¬ Agree b k v w) : get k (set k t v o) w = get k t w := by
  induction k with
  | zero =>
    have hne : digit b 0 w ≠ digit b 0 v := by
      intro he
      refine h fun j hj => ?_
      obtain rfl : j = 0 := by omega
      exact he.symm
    exact update_of_ne hne _ _
  | succ k ih =>
    rw [set]
    cases hc : t.entry (digit b (k + 1) v) with
    | none => rfl
    | some c =>
      rw [get, get]
      dsimp only
      by_cases hd : digit b (k + 1) w = digit b (k + 1) v
      · have hlow : ¬ Agree b k v w := by
          intro ha
          refine h fun j hj => ?_
          rcases Nat.lt_or_ge k j with hkj | hjk
          · obtain rfl : j = k + 1 := by omega
            exact hd.symm
          · exact ha j hjk
        rw [hd, update_self, hc]
        exact ih hlow
      · rw [update_of_ne hd]

/-- **Setting one key changes that key.** -/
theorem get_set (h : Reaches k t v) (hv : v < b ^ (k + 1)) (hw : w < b ^ (k + 1)) :
    get k (set k t v o) w = if w = v then o else get k t w := by
  by_cases hwv : w = v
  · rw [if_pos hwv, hwv]
    exact get_set_self h
  · rw [if_neg hwv]
    exact get_set_of_not_agree fun ha => hwv (eq_of_agree ha hv hw).symm

/-! ## Nodes -/

/-- A sum over a family of which one member changes. -/
theorem sum_update_add {ι β M : Type} [DecidableEq ι] [AddCommMonoid M] (s : Finset ι) (e : ι → β)
    (f : β → M) {i : ι} (hi : i ∈ s) (x : β) :
    ∑ j ∈ s, f (update e i x j) + f (e i) = ∑ j ∈ s, f (e j) + f x := by
  have hrest : ∑ j ∈ s.erase i, f (update e i x j) = ∑ j ∈ s.erase i, f (e j) := by
    refine Finset.sum_congr rfl fun j hj => ?_
    rw [update_of_ne (Finset.ne_of_mem_erase hj)]
  rw [← Finset.add_sum_erase s _ hi, ← Finset.add_sum_erase s (fun j => f (e j)) hi, hrest,
    update_self]
  abel

section

omit [NeZero b]

theorem nodes_zero (t : Tree b α 0) : nodes 0 t = {t.page} := rfl

theorem nodes_succ (t : Tree b α (k + 1)) :
    nodes (k + 1) t = t.page ::ₘ ∑ i, (t.entry i).elim 0 (nodes k) := rfl

theorem root_mem_nodes (k : ℕ) (t : Tree b α k) : root k t ∈ nodes k t := by
  cases k with
  | zero => exact Multiset.mem_singleton_self _
  | succ k => exact Multiset.mem_cons_self _ _

@[simp] theorem nodes_empty (k x : ℕ) : nodes k (empty b α k x) = {x} := by
  cases k with
  | zero => rfl
  | succ k => simp [nodes, empty]

/-- The nodes below one entry, and the others. -/
theorem nodes_split (t : Tree b α (k + 1)) (i : Fin b) :
    ∃ rest, nodes (k + 1) t = (t.entry i).elim 0 (nodes k) + rest ∧
      ∀ c, nodes (k + 1) ⟨t.page, update t.entry i (some c)⟩ = nodes k c + rest := by
  refine ⟨t.page ::ₘ ∑ j ∈ Finset.univ.erase i, (t.entry j).elim 0 (nodes k), ?_, fun c => ?_⟩
  · show t.page ::ₘ ∑ j, (t.entry j).elim 0 (nodes k) = _
    rw [← Finset.add_sum_erase _ _ (Finset.mem_univ i), Multiset.add_cons]
  · show t.page ::ₘ ∑ j, (update t.entry i (some c) j).elim 0 (nodes k) = _
    rw [← Finset.add_sum_erase _ _ (Finset.mem_univ i), update_self, Multiset.add_cons]
    refine congrArg _ (congrArg _ (Finset.sum_congr rfl fun j hj => ?_))
    rw [update_of_ne (Finset.ne_of_mem_erase hj)]

end

theorem nodes_set : nodes k (set k t v o) = nodes k t := by
  induction k with
  | zero => rfl
  | succ k ih =>
    rw [set]
    cases hc : t.entry (digit b (k + 1) v) with
    | none => rfl
    | some c =>
      obtain ⟨rest, hrest, hput⟩ := nodes_split t (digit b (k + 1) v)
      rw [hrest, hc]
      exact (hput _).trans (congrArg (· + rest) ih)

/-- A tree without values is nothing but its nodes. -/
theorem entry_eq_none {t : Tree b α 0} (h : ∀ v < b ^ 1, get 0 t v = none) (i : Fin b) :
    t.entry i = none := by
  have hd : digit b 0 i.val = i := by
    rw [digit, Fin.ext_iff, Fin.val_ofNat, pow_zero, Nat.div_one, Nat.mod_eq_of_lt i.isLt]
  have := h i.val (by rw [pow_one]; exact i.isLt)
  rwa [get, hd] at this

theorem get_congr (h : Agree b k v w) : get k t v = get k t w := by
  induction k with
  | zero => rw [get, get, h 0 le_rfl]
  | succ k ih =>
    rw [get, get, h (k + 1) le_rfl]
    exact congrArg _ (funext fun c => ih fun j hj => h j (by omega))

/-- A key below entry `i` of the root. -/
theorem digit_add (i : Fin b) (hv : v < b ^ (k + 1)) :
    digit b (k + 1) (i.val * b ^ (k + 1) + v) = i ∧ Agree b k (i.val * b ^ (k + 1) + v) v := by
  have hb : 0 < b := Nat.pos_of_neZero b
  constructor
  · rw [digit, Fin.ext_iff, Fin.val_ofNat, Nat.add_comm,
      Nat.add_mul_div_right _ _ (Nat.pow_pos hb), Nat.div_eq_of_lt hv, Nat.zero_add,
      Nat.mod_eq_of_lt i.isLt]
  · intro j hj
    rw [digit_eq_iff]
    have hpow : b ^ (k + 1) = b ^ (k - j) * b * b ^ j := by
      rw [← pow_succ, ← pow_add]
      congr 1
      omega
    rw [hpow, ← Nat.mul_assoc, Nat.add_comm, Nat.add_mul_div_right _ _ (Nat.pow_pos hb),
      ← Nat.mul_assoc, Nat.add_mul_mod_self_right]

/-- The trees below a tree without values have no values. -/
theorem get_child_eq_none {t : Tree b α (k + 1)} (h : ∀ v < b ^ (k + 2), get (k + 1) t v = none)
    {i : Fin b} {c : Tree b α k} (hc : t.entry i = some c) (hv : v < b ^ (k + 1)) :
    get k c v = none := by
  obtain ⟨hd, ha⟩ := digit_add i hv
  have hlt : i.val * b ^ (k + 1) + v < b ^ (k + 2) := by
    calc i.val * b ^ (k + 1) + v < i.val * b ^ (k + 1) + b ^ (k + 1) := by omega
      _ = (i.val + 1) * b ^ (k + 1) := by rw [Nat.add_mul, Nat.one_mul]
      _ ≤ b * b ^ (k + 1) := Nat.mul_le_mul_right _ i.isLt
      _ = b ^ (k + 2) := by rw [pow_succ b (k + 1), Nat.mul_comm]
  have hget := h _ hlt
  rw [get, hd, hc] at hget
  rw [← get_congr ha]
  exact hget

-- the unifier must not run through all entries
attribute [irreducible] nodes

end Radix
