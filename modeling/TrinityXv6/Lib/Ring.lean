import Mathlib.Data.List.Basic
import Mathlib.Data.List.Induction
import Mathlib.Data.List.Nodup
import Mathlib.Logic.Function.Basic

/-!
# Doubly linked rings with a sentinel

A ring of nodes `ι` linked in both directions through a sentinel. A pointer is an `Option ι`,
`none` being the sentinel, and the links are two functions on pointers, so that an assignment
through a pointer is a `update`.

`Links.Through l` says that the ring visits exactly the nodes of `l`, in that order. The two
operations on a ring are removing a node and putting one right after the sentinel, and each is
specified by what it does to `l`; a search along the ring is specified by `List.find?`.
-/

namespace Ring

open Function (update update_of_ne update_self)
open Option
open List

variable {ι : Type}

/-- The forward and backward links of every node and of the sentinel. -/
structure Links (ι : Type) where
  next : Option ι → Option ι
  prev : Option ι → Option ι

namespace Links

/-- `b` follows `a`, seen from both ends. -/
def Linked (R : Links ι) (a b : Option ι) : Prop := R.next a = b ∧ R.prev b = a

/-- Following the links from `a` visits the nodes of `l` and then arrives at `b`. -/
def Path (R : Links ι) : Option ι → List ι → Option ι → Prop
  | a, [], b => R.Linked a b
  | a, i :: l, b => R.Linked a (some i) ∧ R.Path (some i) l b

/-- The ring visits the nodes of `l` between leaving the sentinel and returning to it. -/
def Through (R : Links ι) (l : List ι) : Prop := R.Path none l none

/-- The ring of the sentinel alone. -/
def empty : Links ι := ⟨fun _ => none, fun _ => none⟩

theorem through_empty : (empty : Links ι).Through [] := ⟨rfl, rfl⟩

variable {R R' : Links ι} {l : List ι} {a b x : Option ι} {fuel : ℕ}

theorem path_append {i : ι} {l₁ l₂ : List ι} :
    R.Path a (l₁ ++ i :: l₂) b ↔ R.Path a l₁ (some i) ∧ R.Path (some i) l₂ b := by
  induction l₁ generalizing a with
  | nil => rfl
  | cons j l₁ ih => simp only [cons_append, Path, ih, and_assoc]

/-- A path only depends on the links between its own nodes. -/
theorem Path.congr (h : R.Path a l b)
    (hnext : ∀ x, x = a ∨ (∃ i ∈ l, x = some i) → R'.next x = R.next x)
    (hprev : ∀ x, x = b ∨ (∃ i ∈ l, x = some i) → R'.prev x = R.prev x) : R'.Path a l b := by
  induction l generalizing a with
  | nil => exact ⟨(hnext a (.inl rfl)).trans h.1, (hprev b (.inl rfl)).trans h.2⟩
  | cons i l ih =>
    obtain ⟨⟨hn, hp⟩, hrest⟩ := h
    refine ⟨⟨(hnext a (.inl rfl)).trans hn, ?_⟩, ih hrest (fun x hx => hnext x ?_)
      fun x hx => hprev x ?_⟩
    · rw [hprev (some i) (.inr ⟨i, by simp⟩), hp]
    · rcases hx with rfl | ⟨j, hj, rfl⟩
      · exact .inr ⟨i, by simp⟩
      · exact .inr ⟨j, by simp [hj]⟩
    · rcases hx with rfl | ⟨j, hj, rfl⟩
      · exact .inl rfl
      · exact .inr ⟨j, by simp [hj]⟩

theorem Path.prev_next (h : R.Path a l b) (hx : x = a ∨ ∃ i ∈ l, x = some i) :
    R.prev (R.next x) = x := by
  induction l generalizing a with
  | nil =>
    obtain rfl : x = a := by simpa using hx
    rw [h.1, h.2]
  | cons i l ih =>
    obtain ⟨⟨hn, hp⟩, hrest⟩ := h
    rcases hx with rfl | ⟨j, hj, rfl⟩
    · rw [hn, hp]
    · rcases mem_cons.mp hj with rfl | hj
      · exact ih hrest (.inl rfl)
      · exact ih hrest (.inr ⟨j, hj, rfl⟩)

theorem Path.next_prev (h : R.Path a l b) (hx : x = b ∨ ∃ i ∈ l, x = some i) :
    R.next (R.prev x) = x := by
  induction l generalizing a with
  | nil =>
    obtain rfl : x = b := by simpa using hx
    rw [h.2, h.1]
  | cons i l ih =>
    obtain ⟨⟨hn, hp⟩, hrest⟩ := h
    rcases hx with rfl | ⟨j, hj, rfl⟩
    · exact ih hrest (.inl rfl)
    · rcases mem_cons.mp hj with rfl | hj
      · rw [hp, hn]
      · exact ih hrest (.inr ⟨j, hj, rfl⟩)

/-- The backward link undoes the forward one, on every pointer of the ring. -/
theorem Through.prev_next (h : R.Through l) (hall : ∀ i, i ∈ l) (x : Option ι) :
    R.prev (R.next x) = x :=
  Path.prev_next h (match x with | none => .inl rfl | some i => .inr ⟨i, hall i, rfl⟩)

theorem Through.next_prev (h : R.Through l) (hall : ∀ i, i ∈ l) (x : Option ι) :
    R.next (R.prev x) = x :=
  Path.next_prev h (match x with | none => .inl rfl | some i => .inr ⟨i, hall i, rfl⟩)

/-! ## Removing and inserting -/

section Update

variable [DecidableEq ι]

/-- `i->next->prev = i->prev; i->prev->next = i->next;` -/
def unlink (R : Links ι) (i : ι) : Links ι :=
  let prev := update R.prev (R.next (some i)) (R.prev (some i))
  ⟨update R.next (prev (some i)) (R.next (some i)), prev⟩

/-- `i->next = head->next; i->prev = head; head->next->prev = i; head->next = i;` -/
def pushFront (R : Links ι) (i : ι) : Links ι :=
  let next := update R.next (some i) (R.next none)
  let prev := update R.prev (some i) none
  ⟨update next none (some i), update prev (next none) (some i)⟩

variable {l : List ι} {i : ι}

theorem Through.pushFront (h : R.Through l) (hi : i ∉ l) (hl : l.Nodup) :
    (R.pushFront i).Through (i :: l) := by
  cases l with
  | nil =>
    have hn : R.next none = none := h.1
    refine ⟨⟨by simp [Links.pushFront], ?_⟩, ?_, ?_⟩ <;> simp [Links.pushFront, hn]
  | cons j l =>
    obtain ⟨⟨hn, hp⟩, hrest⟩ := h
    have hij : i ≠ j := fun hc => hi (by simp [hc])
    have hil : i ∉ l := fun hc => hi (by simp [hc])
    have hjl : j ∉ l := (nodup_cons.mp hl).1
    refine ⟨⟨by simp [Links.pushFront], ?_⟩, ⟨?_, ?_⟩, hrest.congr (fun x hx => ?_) fun x hx => ?_⟩
    · simp [Links.pushFront, hn, hij]
    · simp [Links.pushFront, hn]
    · simp [Links.pushFront, hn]
    · have hx0 : x ≠ none ∧ x ≠ some i := by
        rcases hx with rfl | ⟨k, hk, rfl⟩
        · exact ⟨by simp, fun hc => hij (some.inj hc).symm⟩
        · exact ⟨by simp, fun hc => hil (some.inj hc ▸ hk)⟩
      simp [Links.pushFront, update_of_ne hx0.1, update_of_ne hx0.2]
    · have hx0 : x ≠ some j ∧ x ≠ some i := by
        rcases hx with rfl | ⟨k, hk, rfl⟩
        · simp
        · exact ⟨fun hc => hjl (some.inj hc ▸ hk), fun hc => hil (some.inj hc ▸ hk)⟩
      simp [Links.pushFront, hn, update_of_ne hx0.1, update_of_ne hx0.2]

/-- Pushing the elements of a list to the front one after the other. -/
theorem Through.foldl_pushFront (l : List ι) {l₀ : List ι} (h : R.Through l₀)
    (hnd : (l ++ l₀).Nodup) : (l.foldl (fun R i => R.pushFront i) R).Through (l.reverse ++ l₀) := by
  induction l generalizing R l₀ with
  | nil => exact h
  | cons i l ih =>
    rw [cons_append, nodup_cons, mem_append, not_or] at hnd
    rw [foldl_cons, reverse_cons, append_assoc, singleton_append]
    refine ih (h.pushFront hnd.1.2 (nodup_append.mp hnd.2).2.1) ?_
    rw [nodup_middle, nodup_cons, mem_append, not_or]
    exact hnd

/-- The links of `R.unlink i`, when `i` is not its own successor. -/
theorem unlink_eq (hi : R.next (some i) ≠ some i) :
    R.unlink i = ⟨update R.next (R.prev (some i)) (R.next (some i)),
      update R.prev (R.next (some i)) (R.prev (some i))⟩ := by
  simp [unlink, update_of_ne hi.symm]

/-- A path that avoids the two neighbours of `i` survives the removal of `i`. -/
theorem Path.unlink (h : R.Path a l b) (hi : R.next (some i) ≠ some i)
    (hnext : ∀ x, x = a ∨ (∃ j ∈ l, x = some j) → x ≠ R.prev (some i))
    (hprev : ∀ x, x = b ∨ (∃ j ∈ l, x = some j) → x ≠ R.next (some i)) :
    (R.unlink i).Path a l b := by
  rw [unlink_eq hi]
  exact h.congr (fun x hx => update_of_ne (hnext x hx) _ _)
    fun x hx => update_of_ne (hprev x hx) _ _

/-- The neighbours of a removed node become neighbours of each other. -/
theorem linked_unlink (hi : R.next (some i) ≠ some i) :
    (R.unlink i).Linked (R.prev (some i)) (R.next (some i)) := by
  rw [unlink_eq hi]
  exact ⟨update_self .., update_self ..⟩

theorem Through.unlink {l₁ l₂ : List ι} (h : R.Through (l₁ ++ i :: l₂))
    (hl : (l₁ ++ i :: l₂).Nodup) :
    (R.unlink i).Through (l₁ ++ l₂) := by
  obtain ⟨h₁, h₂⟩ := path_append.mp h
  obtain ⟨hl₁, ⟨hi₂, hl₂⟩, hd⟩ : l₁.Nodup ∧ (i ∉ l₂ ∧ l₂.Nodup) ∧
      ∀ x ∈ l₁, x ≠ i ∧ x ∉ l₂ := by
    rw [nodup_append, nodup_cons] at hl
    refine ⟨hl.1, hl.2.1, fun x hx => ⟨hl.2.2 x hx i (by simp), fun hc => ?_⟩⟩
    exact hl.2.2 x hx x (by simp [hc]) rfl
  -- the successor of `i` is the sentinel or a later node, so it is not `i`
  have hne : R.next (some i) ≠ some i := by
    cases l₂ with
    | nil => rw [h₂.1]; simp
    | cons q l₂ => rw [h₂.1.1]; exact fun hc => hi₂ (by simp [some.inj hc])
  have hlink := linked_unlink hne
  rcases eq_nil_or_concat' l₁ with rfl | ⟨m, p, rfl⟩
  · have hp : R.prev (some i) = none := h₁.2
    rw [hp] at hlink
    cases l₂ with
    | nil =>
      rw [h₂.1] at hlink
      exact hlink
    | cons q l₂ =>
      have hn : R.next (some i) = some q := h₂.1.1
      rw [hn] at hlink
      refine ⟨hlink, h₂.2.unlink hne (fun x hx => ?_) fun x hx => ?_⟩
      · rw [hp]
        rcases hx with rfl | ⟨j, _, rfl⟩ <;> simp
      · rw [hn]
        rcases hx with rfl | ⟨j, hj, rfl⟩
        · simp
        · exact fun hc => (nodup_cons.mp hl₂).1 (some.inj hc ▸ hj)
  · obtain ⟨hm, hpi⟩ := path_append.mp h₁
    have hp : R.prev (some i) = some p := hpi.2
    have hpm : p ∉ m := by
      intro hc
      exact (nodup_append.mp hl₁).2.2 p hc p (by simp) rfl
    have hnextm : ∀ x, x = none ∨ (∃ j ∈ m, x = some j) → x ≠ R.prev (some i) := by
      rw [hp]
      rintro x (rfl | ⟨j, hj, rfl⟩)
      · simp
      · exact fun hc => hpm (some.inj hc ▸ hj)
    rw [hp] at hlink
    cases l₂ with
    | nil =>
      have hn : R.next (some i) = none := h₂.1
      rw [hn] at hlink
      rw [Through, append_nil, path_append]
      refine ⟨hm.unlink hne hnextm ?_, hlink⟩
      rw [hn]
      rintro x (rfl | ⟨j, _, rfl⟩) <;> simp
    | cons q l₂ =>
      have hn : R.next (some i) = some q := h₂.1.1
      rw [hn] at hlink
      rw [Through, append_assoc, singleton_append, path_append]
      refine ⟨hm.unlink hne hnextm ?_, hlink, h₂.2.unlink hne (fun x hx => ?_) fun x hx => ?_⟩
      · rw [hn]
        rintro x (rfl | ⟨j, hj, rfl⟩) hc
        · exact (hd p (by simp)).2 (by simp [some.inj hc])
        · exact (hd j (by simp [hj])).2 (by simp [some.inj hc])
      · rw [hp]
        rcases hx with rfl | ⟨j, hj, rfl⟩
        · exact fun hc => (hd p (by simp)).2 (by simp [some.inj hc])
        · exact fun hc => (hd p (by simp)).2 (by simp [← some.inj hc, hj])
      · rw [hn]
        rcases hx with rfl | ⟨j, hj, rfl⟩
        · simp
        · exact fun hc => (nodup_cons.mp hl₂).1 (some.inj hc ▸ hj)

/-- Moving a node to the front of the ring. -/
theorem Through.moveFront (h : R.Through l) (hl : l.Nodup) (hi : i ∈ l) :
    ((R.unlink i).pushFront i).Through (i :: l.erase i) := by
  obtain ⟨l₁, l₂, hi₁, rfl, he⟩ := exists_erase_eq hi
  rw [he]
  have hl' : (l₁ ++ l₂).Nodup ∧ i ∉ l₁ ++ l₂ := by
    rw [← he]
    exact ⟨hl.erase i, hl.not_mem_erase⟩
  exact (h.unlink hl).pushFront hl'.2 hl'.1

end Update

/-! ## Searching -/

/-- Follow `step` from a pointer until a node satisfies `p` or the sentinel is reached. The result
is `none` if `fuel` pointers were visited without reaching either. -/
def scan (step : Option ι → Option ι) (p : ι → Bool) : (fuel : ℕ) → Option ι → Option (Option ι)
  | 0, _ => none
  | _ + 1, none => some none
  | n + 1, some i => if p i then some (some i) else scan step p n (step (some i))

theorem Path.scan_next (h : R.Path a l none) (p : ι → Bool) (hf : l.length < fuel) :
    scan R.next p fuel (R.next a) = some (l.find? p) := by
  induction l generalizing a fuel with
  | nil =>
    obtain ⟨n, rfl⟩ := Nat.exists_eq_succ_of_ne_zero (by omega : fuel ≠ 0)
    rw [h.1]; rfl
  | cons i l ih =>
    obtain ⟨n, rfl⟩ := Nat.exists_eq_succ_of_ne_zero (by omega : fuel ≠ 0)
    rw [h.1.1, scan, List.find?_cons]
    cases hp : p i with
    | true => rfl
    | false => exact ih h.2 (by simpa using hf)

theorem Path.scan_prev (h : R.Path none l b) (p : ι → Bool) (hf : l.length < fuel) :
    scan R.prev p fuel (R.prev b) = some (l.reverse.find? p) := by
  induction l using reverseRecOn generalizing b fuel with
  | nil =>
    obtain ⟨n, rfl⟩ := Nat.exists_eq_succ_of_ne_zero (by omega : fuel ≠ 0)
    rw [h.2]; rfl
  | append_singleton l i ih =>
    obtain ⟨n, rfl⟩ := Nat.exists_eq_succ_of_ne_zero (by omega : fuel ≠ 0)
    obtain ⟨h₁, h₂⟩ := path_append.mp h
    rw [h₂.2, scan, reverse_append, reverse_singleton, singleton_append, List.find?_cons]
    cases hp : p i with
    | true => rfl
    | false => exact ih h₁ (by simpa using hf)

theorem Through.scan_next (h : R.Through l) (p : ι → Bool) (hf : l.length < fuel) :
    scan R.next p fuel (R.next none) = some (l.find? p) :=
  Path.scan_next h p hf

theorem Through.scan_prev (h : R.Through l) (p : ι → Bool) (hf : l.length < fuel) :
    scan R.prev p fuel (R.prev none) = some (l.reverse.find? p) :=
  Path.scan_prev h p hf

end Links

end Ring
