import TrinityXv6.Lib.Window
import TrinityXv6.Process.Wait

/-!
# The line discipline of the console

What the input buffer of `kernel/console.c` is for: a queue of characters that readers may take,
and a line that is still being edited. A character edits the line, or completes it, and a complete
line joins the queue.

`Holds` relates the two to the ring and its three counters, which go on counting across the wrap:
the queue and the line are what stands between `r` and `e`, and `w` stands between them.
-/

namespace TrinityXv6

namespace Process

open List

/-- The characters readers may take, and the line that is being edited. -/
structure Line where
  queue : List UInt8
  edit : List UInt8
  deriving DecidableEq

namespace Line

/-- The number of characters in the buffer. -/
def size (l : Line) : ℕ := l.queue.length + l.edit.length

/-- The line joins the queue. -/
def commit (l : Line) : Line := ⟨l.queue ++ l.edit, []⟩

/-- A character is typed. `^P` changes nothing, backspace and delete drop the last character of
the line, `^U` drops all of them. Any other character but zero is appended if there is room, with
carriage return as newline; newline, `^D` and the character that fills the buffer complete the
line. -/
def input (c : UInt8) (l : Line) : Line :=
  if c = ctrlP then l
  else if c = ctrlU then ⟨l.queue, []⟩
  else if c = ctrlH ∨ c = del then ⟨l.queue, l.edit.dropLast⟩
  else if c ≠ 0 ∧ l.size < 128 then
    let c := if c = carriageReturn then newline else c
    let l : Line := ⟨l.queue, l.edit ++ [c]⟩
    if c = newline ∨ c = ctrlD ∨ l.size = 128 then l.commit else l
  else l

end Line

/-- The buffer as a ring. -/
def Cons.ring (x : Cons) (i : Fin 128) : UInt8 := x.buf i.val

/-- The buffer holds a queue and a line. -/
structure Holds (x : Cons) (l : Line) : Prop where
  window : Window (2 ^ 32) x.ring x.r.toNat x.e.toNat (l.queue ++ l.edit)
  w_eq : x.w.toNat = (x.r.toNat + l.queue.length) % 2 ^ 32
  /-- A newline completes the line. -/
  edit : newline ∉ l.edit

namespace Holds

variable {x : Cons} {l : Line} {c : UInt8} {q L : List UInt8}

theorem dvd : 128 ∣ 2 ^ 32 := by decide

section

variable (h : Holds x l)
include h

theorem size_le : l.size ≤ 128 := by
  have := h.window.length_le
  rwa [length_append] at this

/-- `cons.e - cons.r` is the number of characters. -/
theorem toNat_sub : (x.e - x.r).toNat = l.size := by
  rw [UInt32.toNat_sub, h.window.count (by decide), length_append]
  rfl

/-- `cons.e - cons.w` is the length of the line. -/
theorem toNat_sub_w : (x.e - x.w).toNat = l.edit.length := by
  have hsize := h.size_le
  rw [Line.size] at hsize
  rw [UInt32.toNat_sub, h.window.tail_eq, h.w_eq, length_append]
  omega

theorem e_eq_w_iff : x.e = x.w ↔ l.edit = [] := by
  rw [← length_eq_zero_iff, ← h.toNat_sub_w, ← UInt32.toNat_inj, UInt32.toNat_sub]
  have he := x.e.toNat_lt
  have hw := x.w.toNat_lt
  omega

theorem r_eq_w_iff : x.r = x.w ↔ l.queue = [] := by
  have hsize := h.size_le
  have hr := h.window.head_lt
  rw [Line.size] at hsize
  rw [← length_eq_zero_iff, ← UInt32.toNat_inj, h.w_eq]
  omega

/-- The buffer determines what it holds. -/
theorem unique {l' : Line} (h' : Holds x l') : l = l' := by
  obtain ⟨q, L⟩ := l
  obtain ⟨q', L'⟩ := l'
  have hlen : L.length = L'.length := h.toNat_sub_w.symm.trans h'.toNat_sub_w
  obtain ⟨rfl, rfl⟩ := append_inj' (h.window.unique h'.window (by decide)) hlen
  rfl

end

/-- The place of a counter in the ring. -/
theorem place (a : UInt32) : (a % inputBufSize).toNat = (Fin.ofNat 128 a.toNat).val := by
  rw [UInt32.toNat_mod]
  rfl

/-- An empty buffer, wherever the counters stand. -/
theorem empty (hw : x.w = x.r) (he : x.e = x.r) : Holds x ⟨[], []⟩ where
  window := by
    rw [he]
    exact .nil x.r.toNat_lt
  w_eq := by
    rw [hw]
    exact (Nat.mod_eq_of_lt x.r.toNat_lt).symm
  edit := not_mem_nil

/-- **The first character is taken.** -/
theorem next (h : Holds x ⟨c :: q, L⟩) : x.front = c ∧ Holds x.next ⟨q, L⟩ := by
  obtain ⟨hfront, hwin⟩ := h.window.pop dvd
  have hr : x.next.r.toNat = (x.r.toNat + 1) % 2 ^ 32 := UInt32.toNat_add ..
  refine ⟨?_, ?_, ?_, h.edit⟩
  · rw [Cons.front, place]
    exact hfront
  · rw [hr]
    exact hwin
  · rw [hr]
    show x.w.toNat = _
    rw [h.w_eq, length_cons]
    show (x.r.toNat + (q.length + 1)) % 2 ^ 32 = ((x.r.toNat + 1) % 2 ^ 32 + q.length) % 2 ^ 32
    omega

/-- Where a reader stands. -/
theorem head (h : Holds x l) (hne : x.r ≠ x.w) : l.queue.head? = some x.front := by
  obtain ⟨q, L⟩ := l
  cases q with
  | nil => exact absurd (h.r_eq_w_iff.mpr rfl) hne
  | cons c q => rw [h.next.1, List.head?_cons]

/-- The last character of the line is dropped. -/
theorem erase (h : Holds x ⟨q, L ++ [c]⟩) :
    x.buf ((x.e - 1) % inputBufSize).toNat = c ∧ Holds { x with e := x.e - 1 } ⟨q, L⟩ := by
  have hwin : Window (2 ^ 32) x.ring x.r.toNat x.e.toNat ((q ++ L) ++ [c]) := by
    rw [append_assoc]
    exact h.window
  obtain ⟨hlast, hwin'⟩ := hwin.unpush dvd
  have he : (x.e - 1).toNat = (2 ^ 32 - 1 + x.e.toNat) % 2 ^ 32 := UInt32.toNat_sub ..
  refine ⟨?_, ?_, h.w_eq, fun hmem => h.edit (mem_append_left _ hmem)⟩
  · rw [place, he, Window.ofNat_mod dvd]
    exact hlast
  · rw [he]
    exact hwin'

/-- `^U` drops the whole line: there is no newline in it to stop at. -/
theorem eraseLine (h : Holds x ⟨q, L⟩) {turns : ℕ} (hturns : L.length = turns) :
    Holds (x.eraseLine turns) ⟨q, []⟩ := by
  induction turns generalizing x L with
  | zero =>
    rw [length_eq_zero_iff] at hturns
    subst hturns
    exact h
  | succ turns ih =>
    obtain ⟨L, c, rfl⟩ : ∃ L' c, L = L' ++ [c] := by
      rcases L.eq_nil_or_concat' with rfl | hL
      · cases hturns
      · exact hL
    obtain ⟨hlast, h'⟩ := h.erase
    have hne : x.e ≠ x.w := fun heq => by
      have := h.e_eq_w_iff.mp heq
      simp at this
    have hc : c ≠ newline := fun heq => h.edit (by simp [heq])
    rw [Cons.eraseLine, if_pos ⟨hne, by rwa [hlast]⟩]
    exact ih h' (by simpa using hturns)

/-- `cons.buf[cons.e++ % INPUT_BUF_SIZE] = c` puts a character behind all others. -/
theorem type_window (h : Holds x l) (hsize : l.size < 128) (c : UInt8) :
    Window (2 ^ 32) (x.type c).ring x.r.toNat (x.type c).e.toNat (l.queue ++ l.edit ++ [c]) := by
  have hring : (x.type c).ring = Function.update x.ring (Fin.ofNat 128 x.e.toNat) c := by
    funext i
    show Function.update x.buf (x.e % inputBufSize).toNat c i.val = _
    rw [place]
    by_cases hi : i = Fin.ofNat 128 x.e.toNat
    · rw [hi, Function.update_self, Function.update_self]
    · rw [Function.update_of_ne hi, Function.update_of_ne fun heq => hi (Fin.ext heq)]
      rfl
  have he : (x.type c).e.toNat = (x.e.toNat + 1) % 2 ^ 32 := UInt32.toNat_add ..
  rw [hring, he]
  refine h.window.push dvd ?_ c
  rwa [length_append]

/-- A character that completes the line. -/
theorem type_commit (h : Holds x l) (hsize : l.size < 128) (c : UInt8) :
    Holds { x.type c with w := (x.type c).e } (Line.commit ⟨l.queue, l.edit ++ [c]⟩) where
  window := by
    show Window (2 ^ 32) (x.type c).ring x.r.toNat (x.type c).e.toNat
      ((l.queue ++ (l.edit ++ [c])) ++ [])
    rw [append_nil, ← append_assoc]
    exact h.type_window hsize c
  w_eq := by
    show (x.type c).e.toNat = (x.r.toNat + (l.queue ++ (l.edit ++ [c])).length) % 2 ^ 32
    rw [(h.type_window hsize c).tail_eq, append_assoc]
  edit := not_mem_nil

/-- A character that does not. -/
theorem type_edit (h : Holds x l) (hsize : l.size < 128) (hc : c ≠ newline) :
    Holds (x.type c) ⟨l.queue, l.edit ++ [c]⟩ where
  window := by
    rw [← append_assoc]
    exact h.type_window hsize c
  w_eq := h.w_eq
  edit hmem := by
    rcases mem_append.mp hmem with hmem | hmem
    · exact h.edit hmem
    · exact hc (mem_singleton.mp hmem).symm

/-- **`consoleintr`** does what a character does to the queue and the line. -/
theorem intr (h : Holds x l) (c : UInt8) : Holds (x.intr c).2 (l.input c) := by
  rw [Cons.intr, Line.input]
  by_cases hp : c = ctrlP
  · rw [if_pos hp, if_pos hp]
    exact h
  rw [if_neg hp, if_neg hp]
  by_cases hu : c = ctrlU
  · rw [if_pos hu, if_pos hu]
    exact h.eraseLine h.toNat_sub_w.symm
  rw [if_neg hu, if_neg hu]
  by_cases hd : c = ctrlH ∨ c = del
  · rw [if_pos hd, if_pos hd]
    rcases l.edit.eq_nil_or_concat' with hl | ⟨L, a, hL⟩
    · have heq := h.e_eq_w_iff.mpr hl
      rw [if_neg (not_not.mpr heq), hl]
      obtain ⟨q, L⟩ := l
      subst hl
      exact h
    · have hne : x.e ≠ x.w := fun heq => by
        rw [h.e_eq_w_iff, hL] at heq
        simp at heq
      rw [if_pos hne, hL, dropLast_concat]
      obtain ⟨q, L'⟩ := l
      subst hL
      exact h.erase.2
  rw [if_neg hd, if_neg hd]
  have hroom : x.e - x.r < inputBufSize ↔ l.size < 128 := by
    rw [UInt32.lt_iff_toNat_lt, h.toNat_sub]
    rfl
  by_cases hc : c ≠ 0 ∧ l.size < 128
  · rw [if_pos hc, if_pos ⟨hc.1, hroom.mpr hc.2⟩]
    simp only
    set a := if c = carriageReturn then newline else c
    have hfull : (x.type a).e - (x.type a).r = inputBufSize ↔
        (⟨l.queue, l.edit ++ [a]⟩ : Line).size = 128 := by
      have hcount := (h.type_window hc.2 a).count (by decide)
      rw [append_assoc, length_append] at hcount
      rw [← UInt32.toNat_inj, UInt32.toNat_sub]
      show (2 ^ 32 - x.r.toNat + (x.type a).e.toNat) % 2 ^ 32 = 128 ↔ _
      rw [hcount]
      rfl
    by_cases hend : a = newline ∨ a = ctrlD ∨ (⟨l.queue, l.edit ++ [a]⟩ : Line).size = 128
    · rw [if_pos hend, if_pos (hend.imp id (Or.imp id hfull.mpr))]
      exact h.type_commit hc.2 a
    · rw [if_neg hend, if_neg fun hend' => hend (hend'.imp id (Or.imp id hfull.mp))]
      exact h.type_edit hc.2 fun ha => hend (.inl ha)
  · rw [if_neg hc, if_neg fun hc' => hc ⟨hc'.1, hroom.mp hc'.2⟩]
    exact h

end Holds

end Process

end TrinityXv6
