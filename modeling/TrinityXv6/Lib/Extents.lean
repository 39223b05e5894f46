import Mathlib.Algebra.Order.BigOperators.Group.List
import Mathlib.Algebra.Order.Ring.Nat
import Mathlib.Data.List.Pairwise

/-!
# Memory cut into extents

An extent is a range of addresses. Lists of them in the order of their addresses, with a gap after
each, are what an allocator keeps of free memory: an extent that comes back is put in its place and
joined with the neighbours it touches, so that the gaps stay.

Joining never changes which addresses are covered, nor how many. An `Arena` is memory of which every
part is either free or handed out; its operations move extents from one side to the other.
-/

namespace Extents

/-- A range of `len` addresses from `addr` on. -/
structure Extent where
  addr : ℕ
  len : ℕ
deriving DecidableEq

namespace Extent

/-- The address after the last. -/
def fin (a : Extent) : ℕ := a.addr + a.len

theorem addr_le_fin (a : Extent) : a.addr ≤ a.fin := Nat.le_add_right ..

def Covers (a : Extent) (x : ℕ) : Prop := a.addr ≤ x ∧ x < a.fin

/-- No address in common. -/
def Apart (a b : Extent) : Prop := ∀ x, a.Covers x → ¬ b.Covers x

/-- Two extents, the second right after the first, as one. -/
def join (a b : Extent) : Extent := ⟨a.addr, a.len + b.len⟩

variable {a b : Extent} {x : ℕ}

theorem Apart.symm (h : a.Apart b) : b.Apart a := fun x hb ha => h x ha hb

instance : Std.Symm Apart := ⟨fun _ _ h => h.symm⟩

theorem Apart.le_or_le (h : a.Apart b) (ha : 0 < a.len) (hb : 0 < b.len) :
    a.fin ≤ b.addr ∨ b.fin ≤ a.addr := by
  by_contra hcon
  rw [not_or, not_le, not_le] at hcon
  have hfin : a.addr < a.fin ∧ b.addr < b.fin := ⟨by rw [fin]; omega, by rw [fin]; omega⟩
  refine h (max a.addr b.addr) ⟨le_max_left .., ?_⟩ ⟨le_max_right .., ?_⟩
  · exact max_lt hfin.1 hcon.1
  · exact max_lt hcon.2 hfin.2

theorem Apart.addr_ne (h : a.Apart b) (ha : 0 < a.len) (hb : 0 < b.len) : a.addr ≠ b.addr := by
  intro heq
  refine h a.addr ⟨le_rfl, Nat.lt_add_of_pos_right ha⟩ ?_
  rw [heq]
  exact ⟨le_rfl, Nat.lt_add_of_pos_right hb⟩

theorem apart_of_le (h : a.fin ≤ b.addr) : a.Apart b := fun _ hx hx' =>
  absurd (lt_of_lt_of_le hx.2 h) (not_lt.mpr hx'.1)

@[simp] theorem join_addr (a b : Extent) : (a.join b).addr = a.addr := rfl

theorem join_fin (h : a.fin = b.addr) : (a.join b).fin = b.fin := by
  rw [fin] at h
  show a.addr + (a.len + b.len) = b.addr + b.len
  omega

theorem join_covers (h : a.fin = b.addr) : (a.join b).Covers x ↔ a.Covers x ∨ b.Covers x := by
  rw [Covers, join_fin h, Covers, Covers, ← h]
  have ha := a.addr_le_fin
  have hb : a.fin ≤ b.fin := h ▸ b.addr_le_fin
  show a.addr ≤ x ∧ x < b.fin ↔ _
  omega

/-- The first `k` addresses. -/
def low (a : Extent) (k : ℕ) : Extent := ⟨a.addr, k⟩

/-- All but the first `k` addresses. -/
def high (a : Extent) (k : ℕ) : Extent := ⟨a.addr + k, a.len - k⟩

theorem low_apart_high (a : Extent) (k : ℕ) : (a.low k).Apart (a.high k) := apart_of_le le_rfl

/-- The two parts of an extent. -/
theorem covers_iff {k : ℕ} (hk : k ≤ a.len) :
    a.Covers x ↔ (a.low k).Covers x ∨ (a.high k).Covers x := by
  show a.addr ≤ x ∧ x < a.addr + a.len ↔
    (a.addr ≤ x ∧ x < a.addr + k) ∨ a.addr + k ≤ x ∧ x < a.addr + k + (a.len - k)
  omega

end Extent

open Extent
open List

/-- Some extent of the list has the address. -/
def Covered (l : List Extent) (x : ℕ) : Prop := ∃ a ∈ l, a.Covers x

/-- The number of addresses, each extent counted. -/
def total (l : List Extent) : ℕ := (l.map Extent.len).sum

/-- In the order of the addresses, with a gap after each extent. -/
def Spread (l : List Extent) : Prop := l.Pairwise fun a b => a.fin < b.addr

/-- Put an extent in front of a list, joined with the first one if they touch. -/
def joinUp (b : Extent) : List Extent → List Extent
  | [] => [b]
  | a :: l => if b.fin = a.addr then b.join a :: l else b :: a :: l

/-- Put an extent in its place, joined with the neighbours it touches. -/
def place (b : Extent) : List Extent → List Extent
  | [] => [b]
  | a :: l => if b.addr < a.addr then joinUp b (a :: l) else joinUp a (place b l)

variable {a b c : Extent} {l l₁ l₂ : List Extent} {x : ℕ}

/-! ## Coverage -/

@[simp] theorem covered_nil : Covered [] x ↔ False := by simp [Covered]

@[simp] theorem covered_cons : Covered (a :: l) x ↔ a.Covers x ∨ Covered l x := by simp [Covered]

@[simp] theorem covered_append : Covered (l₁ ++ l₂) x ↔ Covered l₁ x ∨ Covered l₂ x := by
  simp only [Covered, mem_append, or_and_right, exists_or]

@[simp] theorem total_cons : total (a :: l) = a.len + total l := rfl

@[simp] theorem total_append : total (l₁ ++ l₂) = total l₁ + total l₂ := by
  rw [total, map_append, sum_append]
  rfl

theorem covered_joinUp (b : Extent) (l : List Extent) :
    Covered (joinUp b l) x ↔ b.Covers x ∨ Covered l x := by
  cases l with
  | nil => exact covered_cons
  | cons a l =>
    rw [joinUp]
    split
    · next h => rw [covered_cons, join_covers h, covered_cons, or_assoc]
    · exact covered_cons

theorem total_joinUp (b : Extent) (l : List Extent) : total (joinUp b l) = b.len + total l := by
  cases l with
  | nil => rfl
  | cons a l =>
    rw [joinUp]
    split
    · rw [total_cons, total_cons]
      exact Nat.add_assoc ..
    · rfl

/-- **An extent that comes back** adds what it covers, and nothing else. -/
theorem covered_place (b : Extent) (l : List Extent) :
    Covered (place b l) x ↔ b.Covers x ∨ Covered l x := by
  induction l with
  | nil => exact covered_cons
  | cons a l ih =>
    rw [place]
    split
    · exact covered_joinUp b (a :: l)
    · rw [covered_joinUp, ih, covered_cons, or_left_comm]

theorem total_place (b : Extent) (l : List Extent) : total (place b l) = b.len + total l := by
  induction l with
  | nil => rfl
  | cons a l ih =>
    rw [place]
    split
    · exact total_joinUp b (a :: l)
    · rw [total_joinUp, ih, total_cons]
      omega

/-! ## Order -/

theorem Spread.nodup (h : Spread l) : (l.map addr).Nodup := by
  refine pairwise_map.mpr (h.imp fun {a b} hab heq => ?_)
  have := a.addr_le_fin
  omega

theorem exists_joinUp (b : Extent) (l : List Extent) :
    ∃ c m, joinUp b l = c :: m ∧ c.addr = b.addr ∧ b.len ≤ c.len ∧ m ⊆ l := by
  cases l with
  | nil => exact ⟨b, [], rfl, rfl, le_rfl, List.Subset.refl _⟩
  | cons a l =>
    rw [joinUp]
    split
    · exact ⟨b.join a, l, rfl, rfl, Nat.le_add_right .., subset_cons_self ..⟩
    · exact ⟨b, a :: l, rfl, rfl, le_rfl, List.Subset.refl _⟩

theorem addr_of_mem_joinUp (h : c ∈ joinUp b l) : c.addr = b.addr ∨ ∃ a ∈ l, c.addr = a.addr := by
  obtain ⟨d, m, heq, haddr, -, hsub⟩ := exists_joinUp b l
  rw [heq] at h
  rcases mem_cons.mp h with rfl | hc
  · exact .inl haddr
  · exact .inr ⟨c, hsub hc, rfl⟩

theorem addr_of_mem_place (h : c ∈ place b l) : c.addr = b.addr ∨ ∃ a ∈ l, c.addr = a.addr := by
  induction l generalizing c with
  | nil => exact .inl (by rw [mem_singleton.mp h])
  | cons a l ih =>
    rw [place] at h
    split at h
    · exact addr_of_mem_joinUp h
    · rcases addr_of_mem_joinUp h with h | ⟨d, hd, h⟩
      · exact .inr ⟨a, .head _, h⟩
      · rcases ih hd with h' | ⟨e, he, h'⟩
        · exact .inl (h.trans h')
        · exact .inr ⟨e, .tail _ he, h.trans h'⟩

theorem len_pos_joinUp (hb : 0 < b.len) (hl : ∀ a ∈ l, 0 < a.len) :
    ∀ a ∈ joinUp b l, 0 < a.len := by
  obtain ⟨d, m, heq, -, hlen, hsub⟩ := exists_joinUp b l
  rw [heq]
  intro a ha
  rcases mem_cons.mp ha with rfl | ha
  · exact lt_of_lt_of_le hb hlen
  · exact hl a (hsub ha)

theorem len_pos_place (hb : 0 < b.len) (hl : ∀ a ∈ l, 0 < a.len) : ∀ a ∈ place b l, 0 < a.len := by
  induction l with
  | nil =>
    intro a ha
    rwa [mem_singleton.mp ha]
  | cons a l ih =>
    rw [place]
    split
    · exact len_pos_joinUp hb hl
    · exact len_pos_joinUp (hl a (.head _))
        (ih fun c hc => hl c (.tail _ hc))

/-- An extent in front of a list whose addresses it does not reach. -/
theorem Spread.joinUp (hl : Spread l) (hb : ∀ a ∈ l, b.fin ≤ a.addr) : Spread (joinUp b l) := by
  cases l with
  | nil => exact pairwise_singleton ..
  | cons a l =>
    have hl' := pairwise_cons.mp hl
    rw [Extents.joinUp]
    split
    · next h => exact .cons (fun c hc => (join_fin h).symm ▸ hl'.1 c hc) hl'.2
    · next h =>
      have hlt : b.fin < a.addr := lt_of_le_of_ne (hb a (.head _)) h
      refine .cons (fun c hc => ?_) hl
      rcases mem_cons.mp hc with rfl | hc
      · exact hlt
      · have := hl'.1 c hc
        have := a.addr_le_fin
        omega

/-- **The gaps stay.** -/
theorem Spread.place (hl : Spread l) (hpos : ∀ a ∈ l, 0 < a.len) (hb : 0 < b.len)
    (hapart : ∀ a ∈ l, a.Apart b) : Spread (place b l) := by
  induction l with
  | nil => exact pairwise_singleton ..
  | cons a l ih =>
    have hl' := pairwise_cons.mp hl
    have hcmp : ∀ c ∈ a :: l, c.fin ≤ b.addr ∨ b.fin ≤ c.addr := fun c hc =>
      (hapart c hc).le_or_le (hpos c hc) hb
    rw [Extents.place]
    split
    · next hlt =>
      refine hl.joinUp fun c hc => (hcmp c hc).resolve_left fun hle => ?_
      have hc' : a.addr ≤ c.addr := by
        rcases mem_cons.mp hc with rfl | hc
        · exact le_rfl
        · exact a.addr_le_fin.trans (hl'.1 c hc).le
      have := c.addr_le_fin
      omega
    · next hge =>
      have ha : a.fin ≤ b.addr := (hcmp a (.head _)).resolve_right fun hle => by
        have : b.fin = b.addr + b.len := rfl
        omega
      refine (ih hl'.2 (fun c hc => hpos c (.tail _ hc))
        fun c hc => hapart c (.tail _ hc)).joinUp fun c hc => ?_
      rcases addr_of_mem_place hc with h | ⟨d, hd, h⟩
      · rw [h]
        exact ha
      · rw [h]
        exact (hl'.1 d hd).le

theorem length_joinUp_le (b : Extent) (l : List Extent) : (joinUp b l).length ≤ l.length + 1 := by
  cases l with
  | nil => exact le_rfl
  | cons a l =>
    rw [joinUp]
    split
    · exact Nat.le_succ _
    · exact le_rfl

theorem length_place_le (b : Extent) (l : List Extent) : (place b l).length ≤ l.length + 1 := by
  induction l with
  | nil => exact le_rfl
  | cons a l ih =>
    rw [place]
    split
    · exact length_joinUp_le b (a :: l)
    · exact (length_joinUp_le a _).trans (Nat.succ_le_succ ih)

/-- An extent that comes back is part of some extent. -/
theorem exists_len_le_place (b : Extent) (l : List Extent) : ∃ c ∈ place b l, b.len ≤ c.len := by
  have hfirst : ∀ m, ∃ c ∈ joinUp b m, b.len ≤ c.len := fun m => by
    obtain ⟨c, m', heq, -, hlen, -⟩ := exists_joinUp b m
    exact ⟨c, heq ▸ .head _, hlen⟩
  induction l with
  | nil => exact ⟨b, mem_singleton_self b, le_rfl⟩
  | cons a l ih =>
    rw [place]
    split
    · exact hfirst _
    · obtain ⟨c, hc, hlen⟩ := ih
      cases hm : place b l with
      | nil =>
        rw [hm] at hc
        cases hc
      | cons d m =>
        rw [hm] at hc
        rw [joinUp]
        split
        · rcases mem_cons.mp hc with rfl | hc
          · exact ⟨_, .head _, hlen.trans (Nat.le_add_left ..)⟩
          · exact ⟨c, .tail _ hc, hlen⟩
        · exact ⟨c, .tail _ hc, hlen⟩

theorem joinUp_of_lt (h : ∀ c ∈ l, a.fin < c.addr) : joinUp a l = a :: l := by
  cases l with
  | nil => rfl
  | cons c l => rw [joinUp, if_neg (h c (.head _)).ne]

/-- The place of an extent, given the extent before it. -/
theorem place_append_cons {p : Extent} (hl : Spread (l₁ ++ p :: l₂)) (hp : p.addr < b.addr)
    (h₂ : ∀ a ∈ l₂, b.addr < a.addr) : place b (l₁ ++ p :: l₂) = l₁ ++ joinUp p (joinUp b l₂) := by
  induction l₁ with
  | nil =>
    have hins : place b l₂ = joinUp b l₂ := by
      cases l₂ with
      | nil => rfl
      | cons a l => rw [place, if_pos (h₂ a (.head _))]
    rw [nil_append, place, if_neg (not_lt.mpr hp.le), hins, nil_append]
  | cons a l₁ ih =>
    have hl' := pairwise_cons.mp hl
    have hap := hl'.1 p mem_append_cons_self
    have := a.addr_le_fin
    rw [cons_append, place, if_neg (by omega), ih hl'.2]
    refine joinUp_of_lt fun c hc => ?_
    rcases mem_append.mp hc with hc | hc
    · exact hl'.1 c (mem_append_left _ hc)
    · rcases addr_of_mem_joinUp hc with h | ⟨d, hd, h⟩
      · rwa [h]
      · rcases addr_of_mem_joinUp hd with h' | ⟨e, he, h'⟩
        · omega
        · have := hl'.1 e (mem_append_right _ (.tail _ he))
          omega

/-! ## Free and live memory -/

/-- Memory of which every part is free or handed out. -/
structure Arena where
  free : List Extent
  live : List Extent
  pos : ∀ a ∈ free ++ live, 0 < a.len
  spread : Spread free
  apart : live.Pairwise Apart
  free_live : ∀ a ∈ free, ∀ b ∈ live, a.Apart b

namespace Arena

/-- No memory. -/
def empty : Arena := ⟨[], [], by simp, .nil, .nil, by simp⟩

/-- All extents. -/
def all (A : Arena) : List Extent := A.free ++ A.live

variable (A : Arena)

theorem pos_free {A : Arena} (h : a ∈ A.free) : 0 < a.len :=
  A.pos a (mem_append_left _ h)

theorem pos_live {A : Arena} (h : a ∈ A.live) : 0 < a.len :=
  A.pos a (mem_append_right _ h)

/-- No two extents overlap. -/
theorem pairwise_apart : A.all.Pairwise Apart := by
  refine pairwise_append.mpr ⟨A.spread.imp fun h => apart_of_le h.le, A.apart, ?_⟩
  exact A.free_live

/-- More memory, which is free. -/
def grow (b : Extent) (hb : 0 < b.len) (hnew : ∀ a ∈ A.all, a.Apart b) : Arena where
  free := place b A.free
  live := A.live
  pos a ha := by
    rcases mem_append.mp ha with ha | ha
    · exact len_pos_place hb (fun c hc => A.pos_free hc) a ha
    · exact A.pos_live ha
  spread := A.spread.place (fun c hc => A.pos_free hc) hb fun c hc =>
    hnew c (mem_append_left _ hc)
  apart := A.apart
  free_live a ha c hc x hax hcx := by
    have hcov : Covered (place b A.free) x := ⟨a, ha, hax⟩
    rcases (covered_place b A.free).mp hcov with hbx | ⟨d, hd, hdx⟩
    · exact hnew c (mem_append_right _ hc) x hcx hbx
    · exact A.free_live d hd c hc x hdx hcx

/-- A live extent that is nobody's any more. -/
def drop (b : Extent) : Arena where
  free := A.free
  live := A.live.erase b
  pos a ha := by
    rcases mem_append.mp ha with ha | ha
    · exact A.pos_free ha
    · exact A.pos_live (mem_of_mem_erase ha)
  spread := A.spread
  apart := A.apart.sublist erase_sublist
  free_live a ha c hc := A.free_live a ha c (mem_of_mem_erase hc)

variable {A} {a b : Extent} {u v : List Extent} {x : ℕ} {hnew : ∀ a ∈ A.all, a.Apart b}

theorem perm_erase_live (hb : b ∈ A.live) : A.live.Perm (b :: A.live.erase b) :=
  perm_cons_erase hb

theorem apart_of_mem_drop (hb : b ∈ A.live) : ∀ a ∈ (A.drop b).all, a.Apart b := by
  intro a ha
  rcases mem_append.mp ha with ha | ha
  · exact A.free_live a ha b hb
  · have hpair := ((perm_erase_live hb).pairwise_iff fun h => h.symm).mp A.apart
    exact ((pairwise_cons.mp hpair).1 a ha).symm

/-- **Give an extent back.** -/
def release (A : Arena) (b : Extent) (hb : b ∈ A.live) : Arena :=
  (A.drop b).grow b (A.pos_live hb) (apart_of_mem_drop hb)

theorem covered_grow {hb : 0 < b.len} :
    Covered (A.grow b hb hnew).all x ↔ b.Covers x ∨ Covered A.all x := by
  show Covered (place b A.free ++ A.live) x ↔ b.Covers x ∨ Covered (A.free ++ A.live) x
  rw [covered_append, covered_place, covered_append, or_assoc]

theorem total_grow {hb : 0 < b.len} : total (A.grow b hb hnew).all = b.len + total A.all := by
  show total (place b A.free ++ A.live) = b.len + total (A.free ++ A.live)
  rw [total_append, total_place, total_append, Nat.add_assoc]

theorem covered_perm (h : l₁.Perm l₂) : Covered l₁ x ↔ Covered l₂ x := by
  simp only [Covered, h.mem_iff]

theorem total_perm (h : l₁.Perm l₂) : total l₁ = total l₂ :=
  (h.map _).sum_eq

theorem drop_perm (hb : b ∈ A.live) : A.all.Perm (b :: (A.drop b).all) :=
  (List.Perm.append_left _ (perm_erase_live hb)).trans perm_middle

theorem covered_release (hb : b ∈ A.live) : Covered (A.release b hb).all x ↔ Covered A.all x := by
  rw [release, covered_grow, covered_perm (drop_perm hb), covered_cons]

theorem total_release (hb : b ∈ A.live) : total (A.release b hb).all = total A.all := by
  rw [release, total_grow, total_perm (drop_perm hb), total_cons]

/-- Of two free extents one is before the other. -/
theorem free_middle (h : A.free = u ++ a :: v) :
    (∀ c ∈ u, c.fin < a.addr) ∧ ∀ c ∈ v, a.fin < c.addr := by
  have hs := A.spread
  rw [h] at hs
  obtain ⟨-, hav, huav⟩ := pairwise_append.mp hs
  exact ⟨fun c hc => huav c hc a (.head _), (pairwise_cons.mp hav).1⟩

theorem apart_of_free_middle (h : A.free = u ++ a :: v) : ∀ c ∈ u ++ v, c.Apart a := by
  intro c hc
  rcases mem_append.mp hc with hc | hc
  · exact apart_of_le ((free_middle h).1 c hc).le
  · exact (apart_of_le ((free_middle h).2 c hc).le).symm

theorem mem_free_of_middle (h : A.free = u ++ a :: v) (hc : c ∈ u ++ v) : c ∈ A.free := by
  rw [h]
  rcases mem_append.mp hc with hc | hc
  · exact mem_append_left _ hc
  · exact mem_append_right _ (.tail _ hc)

/-- **Hand out a whole extent.** -/
def alloc (A : Arena) (h : A.free = u ++ a :: v) : Arena where
  free := u ++ v
  live := a :: A.live
  pos c hc := by
    rcases mem_append.mp hc with hc | hc
    · exact A.pos_free (mem_free_of_middle h hc)
    · rcases mem_cons.mp hc with rfl | hc
      · exact A.pos_free (h ▸ mem_append_cons_self)
      · exact A.pos_live hc
  spread := (h ▸ A.spread : Spread (u ++ a :: v)).sublist
    (List.Sublist.append_left (sublist_cons_self ..) _)
  apart := .cons (fun c hc => A.free_live a (h ▸ mem_append_cons_self) c
    hc) A.apart
  free_live c hc b hb := by
    rcases mem_cons.mp hb with rfl | hb
    · exact apart_of_free_middle h c hc
    · exact A.free_live c (mem_free_of_middle h hc) b hb

/-- **Hand out the end of an extent**, all but its first `k` addresses. -/
def split (A : Arena) (h : A.free = u ++ a :: v) (k : ℕ) (hk : 0 < k) (hk' : k < a.len) :
    Arena where
  free := u ++ a.low k :: v
  live := a.high k :: A.live
  pos c hc := by
    rcases mem_append.mp hc with hc | hc
    · rcases mem_append.mp hc with hc | hc
      · exact A.pos_free (mem_free_of_middle h (mem_append_left _ hc))
      · rcases mem_cons.mp hc with rfl | hc
        · exact hk
        · exact A.pos_free (mem_free_of_middle h (mem_append_right _ hc))
    · rcases mem_cons.mp hc with rfl | hc
      · exact Nat.sub_pos_of_lt hk'
      · exact A.pos_live hc
  spread := by
    have hs := A.spread
    rw [h] at hs
    obtain ⟨hu, hav, huav⟩ := pairwise_append.mp hs
    obtain ⟨hv, hvv⟩ := pairwise_cons.mp hav
    refine pairwise_append.mpr ⟨hu, .cons (fun c hc => ?_) hvv, fun c hc d hd => ?_⟩
    · exact lt_of_le_of_lt (Nat.add_le_add_left hk'.le _) (hv c hc)
    · rcases mem_cons.mp hd with rfl | hd
      · exact huav c hc a (.head _)
      · exact huav c hc d (.tail _ hd)
  apart := .cons (fun c hc x hx => A.free_live a (h ▸ mem_append_right _
    (.head _)) c hc x ((covers_iff hk'.le).mpr (.inr hx))) A.apart
  free_live c hc b hb x hcx hbx := by
    have ha : a ∈ A.free := h ▸ mem_append_cons_self
    rcases mem_append.mp hc with hc | hc
    · have hc' := mem_append_left v hc
      rcases mem_cons.mp hb with rfl | hb
      · exact apart_of_free_middle h c hc' x hcx ((covers_iff hk'.le).mpr (.inr hbx))
      · exact A.free_live c (mem_free_of_middle h hc') b hb x hcx hbx
    · rcases mem_cons.mp hc with rfl | hc
      · rcases mem_cons.mp hb with rfl | hb
        · exact low_apart_high a k x hcx hbx
        · exact A.free_live a ha b hb x ((covers_iff hk'.le).mpr (.inl hcx)) hbx
      · have hc' := mem_append_right u hc
        rcases mem_cons.mp hb with rfl | hb
        · exact apart_of_free_middle h c hc' x hcx ((covers_iff hk'.le).mpr (.inr hbx))
        · exact A.free_live c (mem_free_of_middle h hc') b hb x hcx hbx

variable (h : A.free = u ++ a :: v)
include h

theorem covered_alloc : Covered (A.alloc h).all x ↔ Covered A.all x := by
  show Covered ((u ++ v) ++ a :: A.live) x ↔ Covered (A.free ++ A.live) x
  rw [h]
  simp only [covered_append, covered_cons]
  tauto

theorem total_alloc : total (A.alloc h).all = total A.all := by
  show total ((u ++ v) ++ a :: A.live) = total (A.free ++ A.live)
  rw [h]
  simp only [total_append, total_cons]
  omega

theorem covered_split {k : ℕ} (hk : 0 < k) (hk' : k < a.len) :
    Covered (A.split h k hk hk').all x ↔ Covered A.all x := by
  show Covered ((u ++ a.low k :: v) ++ a.high k :: A.live) x ↔ Covered (A.free ++ A.live) x
  rw [h]
  simp only [covered_append, covered_cons, covers_iff hk'.le]
  tauto

theorem total_split {k : ℕ} (hk : 0 < k) (hk' : k < a.len) :
    total (A.split h k hk hk').all = total A.all := by
  show total ((u ++ a.low k :: v) ++ a.high k :: A.live) = total (A.free ++ A.live)
  rw [h]
  simp only [total_append, total_cons, low, high]
  omega

end Arena

end Extents
