import Mathlib.Data.List.Basic

/-!
# The matcher of `grep`

A C string is the list of the bytes before its NUL. After a star, the rest of the pattern is tried
at every place that the star reaches. As a specification, a pattern is a list of items, and `Words`
says which words it stands for. What an item is depends on its place: a star belongs to the
character before it, and `$` is special at the end only.
-/

namespace TrinityXv6

namespace Grep

def caret : UInt8 := 94
def dollar : UInt8 := 36
def dot : UInt8 := 46
def star : UInt8 := 42

mutual

def matchhere : (re text : List UInt8) → Bool
  | [], _ => true
  | c :: re, text =>
    if re.head? = some star then matchstar c re.tail text
    else if c = dollar ∧ re = [] then text.isEmpty
    else match text with
      | [] => false
      | x :: text => (c = dot ∨ c = x) && matchhere re text
termination_by re text => (re.length, text.length, 0)

/-- The loop tries the rest of the pattern before it takes one more character. -/
def matchstar (c : UInt8) (re : List UInt8) : (text : List UInt8) → Bool
  | [] => matchhere re []
  | x :: text => matchhere re (x :: text) || (x = c ∨ c = dot) && matchstar c re text
termination_by text => (re.length, text.length, 1)

end

/-- The loop of `match`, up to the empty text at the end. -/
def matchFrom (re : List UInt8) : (text : List UInt8) → Bool
  | [] => matchhere re []
  | x :: text => matchhere re (x :: text) || matchFrom re text

def match' (re text : List UInt8) : Bool :=
  if re.head? = some caret then matchhere re.tail text else matchFrom re text

/-! ## The language of a pattern -/

inductive Item
  | star (c : UInt8)
  | one (c : UInt8)
  | eol

/-- The items of a pattern, without a `^` at its start. -/
def items : List UInt8 → List Item
  | [] => []
  | [c] => [if c = dollar then .eol else .one c]
  | c :: d :: re => if d = star then .star c :: items re else .one c :: items (d :: re)

/-- The words of an item, if `rest` comes after them in the text. -/
def Item.Words : Item → (w rest : List UInt8) → Prop
  | .star c, w, _ => ∀ x ∈ w, c = dot ∨ c = x
  | .one c, w, _ => ∃ x, w = [x] ∧ (c = dot ∨ c = x)
  | .eol, w, rest => w = [] ∧ rest = []

/-- The words of a list of items. -/
def Words : List Item → (w rest : List UInt8) → Prop
  | [], w, _ => w = []
  | i :: is, w, rest => ∃ u v, w = u ++ v ∧ i.Words u (v ++ rest) ∧ Words is v rest

/-- The text starts with a word of the items. -/
def Starts (is : List Item) (text : List UInt8) : Prop :=
  ∃ w rest, text = w ++ rest ∧ Words is w rest

variable {c : UInt8} {re text : List UInt8} {i : Item} {is : List Item}

theorem starts_cons : Starts (i :: is) text ↔ ∃ u v, text = u ++ v ∧ i.Words u v ∧ Starts is v := by
  constructor
  · rintro ⟨_, rest, rfl, u, v, rfl, hu, hv⟩
    exact ⟨u, v ++ rest, List.append_assoc _ _ _, hu, v, rest, rfl, hv⟩
  · rintro ⟨u, _, rfl, hu, v, rest, rfl, hv⟩
    exact ⟨u ++ v, rest, (List.append_assoc _ _ _).symm, u, v, rfl, hu, hv⟩

theorem starts_one : Starts (.one c :: is) text ↔
    ∃ x t, text = x :: t ∧ (c = dot ∨ c = x) ∧ Starts is t := by
  rw [starts_cons]
  constructor
  · rintro ⟨_, t, rfl, ⟨x, rfl, hx⟩, ht⟩
    exact ⟨x, t, rfl, hx, ht⟩
  · rintro ⟨x, t, rfl, hx, ht⟩
    exact ⟨[x], t, rfl, ⟨x, rfl, hx⟩, ht⟩

/-- A star takes nothing, or one character and then itself again. -/
theorem starts_star : Starts (.star c :: is) text ↔
    Starts is text ∨ ∃ x t, text = x :: t ∧ (c = dot ∨ c = x) ∧ Starts (.star c :: is) t := by
  simp only [starts_cons]
  constructor
  · rintro ⟨u, v, rfl, hu, hv⟩
    cases u with
    | nil => exact .inl hv
    | cons x u =>
      obtain ⟨hx, hu⟩ := List.forall_mem_cons.mp hu
      exact .inr ⟨x, u ++ v, rfl, hx, u, v, rfl, hu, hv⟩
  · rintro (h | ⟨x, _, rfl, hx, u, v, rfl, hu, hv⟩)
    · exact ⟨[], text, rfl, List.forall_mem_nil _, h⟩
    · exact ⟨x :: u, v, rfl, List.forall_mem_cons.mpr ⟨hx, hu⟩, hv⟩

theorem starts_eol : Starts [.eol] text ↔ text = [] := by
  rw [starts_cons]
  constructor
  · rintro ⟨_, _, rfl, ⟨rfl, rfl⟩, -⟩
    rfl
  · rintro rfl
    exact ⟨[], [], rfl, ⟨rfl, rfl⟩, [], [], rfl, rfl⟩

section

variable (hre : ∀ text, matchhere re text = true ↔ Starts is text)
include hre

theorem matchstar_iff : matchstar c re text = true ↔ Starts (.star c :: is) text := by
  induction text with
  | nil =>
    rw [matchstar, hre, starts_star]
    simp
  | cons x t ih =>
    rw [matchstar, Bool.or_eq_true, hre, starts_star, Bool.and_eq_true, ih, decide_eq_true_iff]
    simp [or_comm, eq_comm]

theorem matchhere_one (hstar : re.head? ≠ some star) (hdollar : ¬ (c = dollar ∧ re = [])) :
    matchhere (c :: re) text = true ↔ Starts (.one c :: is) text := by
  rw [matchhere.eq_def, starts_one]
  simp only [if_neg hstar, if_neg hdollar]
  cases text with
  | nil => simp
  | cons x t => simp [hre]

end

theorem matchhere_iff : matchhere re text = true ↔ Starts (items re) text := by
  induction re using items.induct generalizing text with
  | case1 => simp [matchhere, items, Starts, Words]
  | case2 c =>
    rw [items]
    split_ifs with hc
    · unfold matchhere
      simp [hc, starts_eol]
    · exact matchhere_one (fun text => by simp [matchhere, Starts, Words]) (by simp) fun h => hc h.1
  | case3 c re ih =>
    unfold matchhere
    rw [items, if_pos rfl]
    exact matchstar_iff fun _ => ih
  | case4 c d re hd ih =>
    rw [items, if_neg hd]
    exact matchhere_one (fun _ => ih) (by simpa using hd) (by simp)

theorem matchFrom_iff : matchFrom re text = true ↔ ∃ t, t <:+ text ∧ Starts (items re) t := by
  induction text with
  | nil => simp [matchFrom, matchhere_iff]
  | cons x t ih =>
    rw [matchFrom, Bool.or_eq_true, matchhere_iff, ih]
    simp only [List.suffix_cons_iff, or_and_right, exists_or, exists_eq_left]

/-- **The matcher of `grep`.** -/
theorem match_iff (re text : List UInt8) : match' re text = true ↔
    if re.head? = some caret then ∃ w rest, text = w ++ rest ∧ Words (items re.tail) w rest
    else ∃ u w rest, text = u ++ w ++ rest ∧ Words (items re) w rest := by
  rw [match']
  split_ifs with h
  · exact matchhere_iff
  · rw [matchFrom_iff]
    constructor
    · rintro ⟨_, ⟨u, rfl⟩, w, rest, rfl, hw⟩
      exact ⟨u, w, rest, (List.append_assoc _ _ _).symm, hw⟩
    · rintro ⟨u, w, rest, rfl, hw⟩
      exact ⟨w ++ rest, ⟨u, (List.append_assoc _ _ _).symm⟩, w, rest, rfl, hw⟩

end Grep

end TrinityXv6
