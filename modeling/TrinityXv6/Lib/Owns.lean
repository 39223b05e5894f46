import Mathlib.Algebra.Order.Ring.Nat
import Mathlib.Logic.Function.Basic

/-!
# Slots that own numbered resources

A family of slots, each of which holds the number of a resource or `0` for none, and a bitmap of
the resources in use. The numbers below `lo` are always in use and never held by a slot; those from
`lo` up to `hi` are in use exactly when some slot holds them, and then only one slot does.
-/

/-- The slots `a` own the resources from `lo` up to `hi` that `used` marks. -/
structure Owns {ι : Type} (lo hi : ℕ) (a : ι → ℕ) (used : ℕ → Bool) : Prop where
  inj : ∀ x y, a x ≠ 0 → a x = a y → x = y
  range : ∀ x, a x ≠ 0 → lo ≤ a x ∧ a x < hi
  used_iff : ∀ b < hi, used b = true ↔ b < lo ∨ b ≠ 0 ∧ ∃ x, a x = b

namespace Owns

open Function (update update_self update_of_ne)

variable {ι : Type} {lo hi b : ℕ} {a a' : ι → ℕ} {used used' : ℕ → Bool}

/-- A resource that a slot holds is in use. -/
theorem used_of_slot (h : Owns lo hi a used) {x : ι} (hx : a x ≠ 0) : used (a x) = true :=
  (h.used_iff _ (h.range x hx).2).mpr (.inr ⟨hx, x, rfl⟩)

/-- No slot holds a resource that is not in use. -/
theorem ne_of_not_used (h : Owns lo hi a used) (hb : b ≠ 0) (hu : used b = false) (x : ι) :
    a x ≠ b := by
  rintro rfl
  rw [h.used_of_slot hb] at hu
  cases hu

theorem le_of_not_used (h : Owns lo hi a used) (hb : b < hi) (hu : used b = false) : lo ≤ b := by
  by_contra hlt
  rw [(h.used_iff b hb).mpr (.inl (by omega))] at hu
  cases hu

variable [DecidableEq ι]

/-- **An empty slot takes a free resource.** -/
theorem alloc (h : Owns lo hi a used) {x : ι} (hx : a x = 0) (hb : b < hi) (hb0 : b ≠ 0)
    (hu : used b = false) : Owns lo hi (update a x b) (update used b true) where
  inj y z hy hyz := by
    have hfresh := h.ne_of_not_used hb0 hu
    by_cases hyx : y = x <;> by_cases hzx : z = x
    · rw [hyx, hzx]
    · subst hyx
      rw [update_self, update_of_ne hzx] at hyz
      exact absurd hyz.symm (hfresh z)
    · subst hzx
      rw [update_self, update_of_ne hyx] at hyz
      exact absurd hyz (hfresh y)
    · rw [update_of_ne hyx] at hy hyz
      rw [update_of_ne hzx] at hyz
      exact h.inj y z hy hyz
  range y hy := by
    by_cases hyx : y = x
    · subst hyx
      rw [update_self]
      exact ⟨h.le_of_not_used hb hu, hb⟩
    · rw [update_of_ne hyx] at hy ⊢
      exact h.range y hy
  used_iff c hc := by
    by_cases hcb : c = b
    · subst hcb
      rw [update_self]
      exact iff_of_true rfl (.inr ⟨hb0, x, update_self ..⟩)
    · rw [update_of_ne hcb, h.used_iff c hc]
      refine or_congr_right (and_congr_right fun hc0 => ⟨?_, ?_⟩)
      · rintro ⟨y, rfl⟩
        have hyx : y ≠ x := by
          rintro rfl
          exact hc0 hx
        exact ⟨y, update_of_ne hyx _ _⟩
      · rintro ⟨y, hy⟩
        by_cases hyx : y = x
        · subst hyx
          rw [update_self] at hy
          exact absurd hy.symm hcb
        · rw [update_of_ne hyx] at hy
          exact ⟨y, hy⟩

end Owns
