import Mathlib.Logic.Function.Basic

/-!
# Linked lists

A list in memory is given by the function that takes an element to its successor. `Linked next l e`
says that the elements of `l` are linked in their order and that the last one points to `e`. A ring
is a list that ends where it starts, and may be read from any of its elements.
-/

namespace Links

variable {α : Type}

/-- Each element points to the next one, and the last one to `e`. -/
def Linked (next : α → α) : List α → α → Prop
  | [], _ => True
  | a :: l, e => next a = l.headD e ∧ Linked next l e

variable {next next' : α → α} {l u v : List α} {a b e : α}

theorem headD_append (u v : List α) (e : α) : (u ++ v).headD e = u.headD (v.headD e) := by
  cases u with
  | nil => rfl
  | cons a u => rfl

theorem linked_append : Linked next (u ++ v) e ↔ Linked next u (v.headD e) ∧ Linked next v e := by
  induction u with
  | nil => exact (true_and _).symm ▸ Iff.rfl
  | cons a u ih =>
    rw [List.cons_append, Linked, Linked, headD_append, ih, and_assoc]

theorem Linked.congr (h : Linked next l e) (heq : ∀ a ∈ l, next' a = next a) :
    Linked next' l e := by
  induction l with
  | nil => trivial
  | cons a l ih =>
    exact ⟨(heq a (.head _)).trans h.1,
      ih h.2 fun b hb => heq b (.tail _ hb)⟩

theorem Linked.next_eq (h : Linked next (u ++ a :: v) e) : next a = v.headD e :=
  (linked_append.mp h).2.1

/-- The successor of an element stands after it. -/
theorem Linked.exists_split (h : Linked next l e) (ha : a ∈ l) (hb : next a = b) (hbe : b ≠ e) :
    ∃ u v, l = u ++ a :: b :: v := by
  obtain ⟨u, v, rfl⟩ := List.append_of_mem ha
  have hnext := h.next_eq
  cases v with
  | nil => exact absurd (hb.symm.trans hnext) hbe
  | cons c v => exact ⟨u, v, by rw [show b = c from hb.symm.trans hnext]⟩

/-- The successor of an element of a ring is one as well. -/
theorem Linked.next_mem (h : Linked next l e) (he : e ∈ l) (ha : a ∈ l) : next a ∈ l := by
  by_cases hne : next a = e
  · rwa [hne]
  · obtain ⟨u, v, heq⟩ := h.exists_split ha rfl hne
    rw [heq]
    exact List.mem_append_right _ (.tail _ (.head _))

/-- **A ring, read from another element.** -/
theorem Linked.rotate (h : Linked next (u ++ a :: v) ((u ++ a :: v).headD e)) :
    Linked next (a :: v ++ u) a := by
  obtain ⟨hu, hv⟩ := linked_append.mp h
  refine linked_append.mpr ⟨?_, hu⟩
  rwa [headD_append] at hv

end Links
