import Mathlib.Algebra.Order.BigOperators.Group.Finset
import TrinityXv6.Vm.Paging

/-!
# What virtual memory does

A page table is, as far as its users are concerned, a map from page numbers to leaves together with
the pages it is stored in. The specifications of this module say what the functions of
`TrinityXv6.Vm.Paging` on single leaves do to the map, that no page is lost or used twice, and that
they do not panic. Those on whole address spaces are in `TrinityXv6.Vm.SpaceSpec`.

Pages are accounted for by a ledger: the pages of the machine are the free ones and those that are
somewhere else, and every function says how it changes what is somewhere else. A function that takes
a page and puts it into a table, or fails and gives it back, balances.
-/

namespace TrinityXv6

namespace Vm

open Command
open Multiset
open Radix
open Function (update update_eq_self update_of_ne update_self)

/-- The page number of the trapframe; user addresses are below it. -/
def tfPage : ℕ := Vm.trapframe / pgsize

theorem tfPage_eq : tfPage = 67108862 := by decide

/-- The number of pages that a table has entries for. -/
def tablePages : ℕ := 512 ^ 3

theorem tablePages_eq : tablePages = 134217728 := by decide

/-- The number of pages below `MAXVA`. -/
def maxPages : ℕ := maxva / pgsize

theorem maxPages_eq : maxPages = 67108864 := by decide

theorem lt_maxPages {v : ℕ} (h : v < tfPage) : v < maxPages := by
  have := maxPages_eq
  have := tfPage_eq
  omega

theorem lt_tablePages {v : ℕ} (h : v < maxPages) : v < tablePages := by
  have := maxPages_eq
  have := tablePages_eq
  omega

theorem trapframe_eq : Vm.trapframe = tfPage * pgsize := by decide

theorem trampoline_eq : Vm.trampoline = (tfPage + 1) * pgsize := by decide

namespace Table

/-- The leaf at a page number. -/
def map (t : Table) (v : ℕ) : Option Leaf := if v < tablePages then get 2 t v else none

end Table

/-- The page of a leaf. -/
def pageOf : Option Leaf → Multiset ℕ
  | none => 0
  | some l => {l.ppn}

/-- The pages that a map has below page `b`. -/
def held (b : ℕ) (m : ℕ → Option Leaf) : Multiset ℕ := ∑ v ∈ Finset.range b, pageOf (m v)

/-- The pages that a table is stored in and those that it maps below the trapframe. -/
def Table.pages (t : Table) : Multiset ℕ := nodes 2 t + held tfPage t.map

/-- The pages that `kinit` has found, without those that the kernel has taken before the first
process: they are few enough for a page table to run out of memory before it runs out of
addresses. -/
structure Ram where
  lo : ℕ
  hi : ℕ
  tramp : ℕ
  all : Multiset ℕ
  nodup : all.Nodup
  range : ∀ x ∈ all, lo ≤ x ∧ x < hi
  card : all.card < maxPages

/-- Every page is free or among the pages `R`, which are in use. -/
structure Books (W : Ram) (k : Kmem) (R : Multiset ℕ) : Prop where
  lo : k.lo = W.lo
  hi : k.hi = W.hi
  tramp : k.tramp = W.tramp
  clean : k.clean = true
  used : (k.used : Multiset ℕ) = R
  sum : (k.free : Multiset ℕ) + R = W.all

variable {W : Ram} {k k' : Kmem} {R R' F : Multiset ℕ} {t t' : Table} {x v w : ℕ} {E : Panic → Prop}
  {o : Option Leaf}

/-! ## The pages that a map has -/

section Held

variable {b : ℕ} {m m' : ℕ → Option Leaf}

theorem held_congr (h : ∀ v < b, m v = m' v) : held b m = held b m' :=
  Finset.sum_congr rfl fun v hv => by rw [h v (Finset.mem_range.mp hv)]

theorem held_none : held b (fun _ => none) = 0 := Finset.sum_eq_zero fun _ _ => rfl

/-- Below the bound, a leaf counts. -/
theorem held_update (hv : v < b) (o : Option Leaf) :
    held b (update m v o) + pageOf (m v) = held b m + pageOf o :=
  sum_update_add _ m pageOf (Finset.mem_range.mpr hv) o

/-- From the bound on, it does not. -/
theorem held_update_of_le (hv : b ≤ v) (o : Option Leaf) : held b (update m v o) = held b m := by
  refine held_congr fun w hw => ?_
  rw [update_of_ne (by omega)]

theorem mem_held_iff : x ∈ held b m ↔ ∃ v l, v < b ∧ m v = some l ∧ l.ppn = x := by
  rw [held, mem_sum]
  constructor
  · rintro ⟨v, hv, hx⟩
    cases hm : m v with
    | none =>
      rw [hm] at hx
      cases hx
    | some l =>
      rw [hm] at hx
      exact ⟨v, l, Finset.mem_range.mp hv, hm, (mem_singleton.mp hx).symm⟩
  · rintro ⟨v, l, hv, hm, rfl⟩
    refine ⟨v, Finset.mem_range.mpr hv, ?_⟩
    rw [hm]
    exact mem_singleton_self _

/-- A sum without duplicates has no element in two summands. -/
theorem eq_of_mem_sum {ι : Type} [DecidableEq ι] {I : Finset ι} {f : ι → Multiset ℕ} {i j : ι}
    (h : (∑ i ∈ I, f i).Nodup) (hi : i ∈ I) (hj : j ∈ I) (hxi : x ∈ f i) (hxj : x ∈ f j) :
    i = j := by
  by_contra hne
  rw [← Finset.add_sum_erase I f hi] at h
  refine disjoint_left.mp (nodup_add.mp h).2.2 hxi ?_
  exact mem_sum.mpr ⟨j, Finset.mem_erase.mpr ⟨Ne.symm hne, hj⟩, hxj⟩

/-- A page that is there once is mapped at one address. -/
theorem eq_of_held {l l' : Leaf} (h : (held b m).Nodup) (hv : v < b) (hw : w < b)
    (hm : m v = some l) (hm' : m w = some l') (hl : l.ppn = l'.ppn) : v = w := by
  refine eq_of_mem_sum (x := l.ppn) h (Finset.mem_range.mpr hv) (Finset.mem_range.mpr hw) ?_ ?_
  · rw [hm]
    exact mem_singleton_self _
  · rw [hm', hl]
    exact mem_singleton_self _

/-- A map holds at least as many pages as it has leaves below an address. -/
theorem le_card_held (hv : v ≤ b) (hm : ∀ u < v, m u ≠ none) : v ≤ (held b m).card := by
  have hone : ∀ u ∈ Finset.range v, 1 ≤ (pageOf (m u)).card := by
    intro u hu
    cases hmu : m u with
    | none => exact absurd hmu (hm u (Finset.mem_range.mp hu))
    | some l => exact (card_singleton _).ge
  calc v = ∑ u ∈ Finset.range v, 1 := by simp
    _ ≤ ∑ u ∈ Finset.range v, (pageOf (m u)).card := Finset.sum_le_sum hone
    _ ≤ ∑ u ∈ Finset.range b, (pageOf (m u)).card :=
      Finset.sum_le_sum_of_subset (Finset.range_mono hv)
    _ = (held b m).card := (card_sum _ _).symm

-- the unifier must not run through all pages
attribute [irreducible] held

end Held

theorem Books.of_eq (h : Books W k R) (he : R = R') : Books W k R' := he ▸ h

/-- No page is used twice. -/
theorem Books.nodup (h : Books W k R) : ((k.free : Multiset ℕ) + R).Nodup := h.sum ▸ W.nodup

/-! ## Single pages -/

theorem kalloc_spec (h : Books W k R) :
    Ends (kalloc k) (fun o k' => Books W k' (o.elim 0 (fun x => {x}) + R)) E := by
  unfold kalloc
  split_ifs
  · exact ⟨h.lo, h.hi, h.tramp, h.clean, by simpa using h.used, by simpa using h.sum⟩
  · have hsum := h.sum
    cases hf : k.free with
    | nil =>
      refine ⟨h.lo, h.hi, h.tramp, h.clean, by simpa using h.used, ?_⟩
      simpa [hf] using hsum
    | cons x free =>
      refine ⟨h.lo, h.hi, h.tramp, h.clean, ?_, ?_⟩
      · rw [← h.used, ← cons_coe, ← singleton_add]
        rfl
      rw [hf] at hsum
      rw [← hsum, ← cons_coe, ← singleton_add]
      simp only [Option.elim_some]
      abel

theorem kfree_spec (h : Books W k ({x} + R)) : Ends (kfree x k) (fun _ k' => Books W k' R) E := by
  have hmem : x ∈ W.all := by
    rw [← h.sum]
    simp
  have hrange := W.range x hmem
  have hfree : x ∉ k.free := by
    intro hx
    exact disjoint_left.mp (nodup_add.mp h.nodup).2.2 (mem_coe.mpr hx)
      (by simp)
  have hcount : k.used.count x = 1 := by
    rw [← coe_count, h.used]
    exact count_eq_one_of_mem (nodup_add.mp h.nodup).2.1 (by simp)
  unfold kfree
  rw [h.lo, h.hi, if_neg (by omega)]
  refine ⟨rfl, rfl, h.tramp, ?_, ?_, ?_⟩
  · simp [h.clean, hfree, hcount]
  · rw [← coe_erase, h.used, singleton_add, erase_cons_head]
  · rw [← h.sum]
    rw [← cons_coe, ← singleton_add]
    abel

/-! ## Looking up an entry -/

/-- `walk` without allocation only looks. -/
theorem walkFrom_false (v n : ℕ) (t : Radix.Tree 512 Leaf n) (k : Kmem) :
    ∃ b, walkFrom false v n t k = .ok ((b, t), k) ∧ (b = true ↔ Radix.Reaches n t v) := by
  induction n with
  | zero => exact ⟨true, rfl, iff_of_true rfl trivial⟩
  | succ n ih =>
    rw [walkFrom]
    cases hc : t.entry (digit 512 (n + 1) v) with
    | none => exact ⟨false, rfl, iff_of_false nofun fun ⟨c, hc', _⟩ => by cases hc.symm.trans hc'⟩
    | some c =>
      obtain ⟨b, hb, hiff⟩ := ih c
      refine ⟨b, ?_, hiff.trans ⟨fun hr => ⟨c, hc, hr⟩, ?_⟩⟩
      · have hsame : (⟨t.page, update t.entry (digit 512 (n + 1) v) (some c)⟩ :
            Radix.Node 512 (Radix.Tree 512 Leaf n)) = t := by
          rw [← hc, update_eq_self]
          rfl
        dsimp only
        rw [bind_of_ok hb]
        exact congrArg (fun t' => Except.ok ((b, t'), k)) hsame
      · rintro ⟨c', hc', hr⟩
        cases hc.symm.trans hc'
        exact hr

/-- `walk` with allocation adds nodes, and keeps all leaves. -/
theorem walkFrom_spec (v n : ℕ) (t : Radix.Tree 512 Leaf n) (h : Books W k (nodes n t + F)) :
    Ends (walkFrom true v n t k) (fun r k' => Books W k' (nodes n r.2 + F) ∧
      (∀ w, get n r.2 w = get n t w) ∧ (r.1 = true → Radix.Reaches n r.2 v)) E := by
  induction n generalizing k F with
  | zero => exact ⟨h, fun _ => rfl, fun _ => trivial⟩
  | succ n ih =>
    obtain ⟨rest, hrest, hput⟩ := nodes_split t (digit 512 (n + 1) v)
    rw [hrest, add_assoc] at h
    -- what follows is the same for a node that was there and for a new one
    have hbelow : ∀ {c : Radix.Tree 512 Leaf n} {k : Kmem},
        (∀ w, get n c w =
          (t.entry (digit 512 (n + 1) v)).bind fun c => get n c w) →
        Books W k (nodes n c + (rest + F)) →
        Ends ((walkFrom true v n c >>= fun r => pure (r.1, (⟨t.page, update t.entry
          (digit 512 (n + 1) v) (some r.2)⟩ : Radix.Tree 512 Leaf (n + 1)))) k)
          (fun r k' => Books W k' (nodes (n + 1) r.2 + F) ∧
            (∀ w, get (n + 1) r.2 w = get (n + 1) t w) ∧
            (r.1 = true → Radix.Reaches (n + 1) r.2 v)) E := by
      intro c k hget hb
      refine Ends.bind (ih c hb) fun r k' hr => ⟨?_, fun w => ?_, fun hok => ?_⟩
      · rw [hput, add_assoc]
        exact hr.1
      · show (update t.entry _ (some r.2) (digit 512 (n + 1) w)).bind _ =
          (t.entry (digit 512 (n + 1) w)).bind _
        by_cases hd : digit 512 (n + 1) w = digit 512 (n + 1) v
        · rw [hd, update_self, ← hget w]
          exact hr.2.1 w
        · rw [update_of_ne hd]
      · exact ⟨r.2, update_self .., hr.2.2 hok⟩
    rw [walkFrom]
    cases hc : t.entry (digit 512 (n + 1) v) with
    | some c =>
      rw [hc] at h
      exact hbelow (fun w => by rw [hc]; rfl) h
    | none =>
      rw [hc] at h
      rw [if_pos rfl]
      refine Ends.bind (kalloc_spec h) fun o k' hk' => ?_
      cases o with
      | none =>
        refine ⟨?_, fun _ => rfl, nofun⟩
        rw [hrest, hc, add_assoc]
        simpa using hk'
      | some x =>
        refine hbelow (fun w => by rw [hc, get_empty]; rfl) ?_
        rw [nodes_empty]
        simpa using hk'

/-! ## The map of a table -/

theorem mul_pgsize_div (v : ℕ) : v * pgsize / pgsize = v := Nat.mul_div_cancel v (by decide)

theorem mul_pgsize_aligned (v : ℕ) : ¬ v * pgsize % pgsize ≠ 0 := by
  rw [Nat.mul_mod_left]
  exact fun h => h rfl

theorem pte_mul (t : Table) (hv : v < tablePages) : t.pte (v * pgsize) = t.map v := by
  rw [Table.pte, mul_pgsize_div, Table.map, if_pos hv]

theorem map_setPte (hr : Radix.Reaches 2 t v) (hv : v < tablePages) :
    (t.setPte (v * pgsize) o).map = update t.map v o := by
  funext w
  rw [Table.setPte, mul_pgsize_div]
  by_cases hw : w < tablePages
  · rw [Table.map, if_pos hw, get_set hr hv hw]
    by_cases hwv : w = v
    · rw [if_pos hwv, hwv, update_self]
    · rw [if_neg hwv, update_of_ne hwv, Table.map, if_pos hw]
  · have hwv : w ≠ v := by
      rintro rfl
      exact hw hv
    rw [Table.map, if_neg hw, update_of_ne hwv, Table.map, if_neg hw]

theorem nodes_setPte (va : ℕ) : nodes 2 (t.setPte va o) = nodes 2 t :=
  nodes_set

/-- `walk` without allocation only looks. -/
theorem walk_false (t : Table) {va : ℕ} (hva : va < maxva) (k : Kmem) :
    ∃ b, walk t va false k = .ok ((b, t), k) ∧ (b = true ↔ Radix.Reaches 2 t (va / pgsize)) := by
  rw [walk, if_neg (by omega)]
  exact walkFrom_false (va / pgsize) 2 t k

theorem mul_pgsize_lt (hv : v < maxPages) : v * pgsize < maxva := by
  have := maxPages_eq
  show v * 4096 < 2 ^ 38
  omega

theorem map_eq_none_of_not_reaches (h : ¬ Radix.Reaches 2 t v) : t.map v = none := by
  rw [Table.map]
  split_ifs
  · cases hg : get 2 t v with
    | none => rfl
    | some l => exact absurd (reaches_of_get hg) h
  · rfl

theorem walk_true (hv : v < maxPages) (h : Books W k (t.pages + F)) :
    Ends (walk t (v * pgsize) true k) (fun r k' => Books W k' (r.2.pages + F) ∧ r.2.map = t.map ∧
      (r.1 = true → Radix.Reaches 2 r.2 v)) E := by
  rw [walk, if_neg (Nat.not_le.mpr (mul_pgsize_lt hv)), mul_pgsize_div]
  rw [Table.pages, add_assoc] at h
  refine (walkFrom_spec v 2 t h).imp fun r k' hr => ?_
  have hmap : Table.map r.2 = t.map := by
    funext w
    rw [Table.map, Table.map, hr.2.1 w]
  refine ⟨hr.1.of_eq ?_, hmap, hr.2.2⟩
  rw [Table.pages, hmap, add_assoc]

/-! ## Mapping and unmapping -/

variable {perm : Perm} {pa : ℕ}

/-- `mappages` of one page that is not mapped. -/
theorem mappages_spec (hv : v < maxPages) (hnone : t.map v = none) (h : Books W k (t.pages + F)) :
    Ends (mappages t (v * pgsize) pgsize pa perm k) (fun r k' =>
      (r.1 = true → r.2.map = update t.map v (some ⟨pa, perm⟩) ∧
        Books W k' (nodes 2 r.2 + held tfPage t.map + F)) ∧
      (r.1 = false → r.2.map = t.map ∧ Books W k' (r.2.pages + F))) E := by
  rw [mappages, if_neg (mul_pgsize_aligned v), if_neg (by decide), if_neg (by decide)]
  rw [mappagesFrom]
  refine Ends.bind (walk_true hv h) fun r k' hr => ?_
  obtain ⟨hb, hmap, hreach⟩ := hr
  cases hok : r.1 with
  | false =>
    refine ⟨nofun, fun _ => ⟨hmap, hb⟩⟩
  | true =>
    have hv' := lt_tablePages hv
    have hpte : (r.2.pte (v * pgsize)).isSome = false := by
      rw [pte_mul _ hv', hmap, hnone]
      rfl
    rw [if_pos rfl, hpte, if_neg Bool.false_ne_true]
    refine ⟨fun _ => ⟨?_, ?_⟩, nofun⟩
    · rw [map_setPte (hreach hok) hv', hmap]
    · rw [nodes_setPte, ← hmap]
      exact hb

/-- `mappages` of a page that is at hand, at a user address. -/
theorem mappages_user (hv : v < tfPage) (hnone : t.map v = none)
    (h : Books W k (t.pages + ({pa} + F))) :
    Ends (mappages t (v * pgsize) pgsize pa perm k) (fun r k' =>
      (r.1 = true → r.2.map = update t.map v (some ⟨pa, perm⟩) ∧ Books W k' (r.2.pages + F)) ∧
      (r.1 = false → r.2.map = t.map ∧ Books W k' ({pa} + (r.2.pages + F)))) E := by
  refine (mappages_spec (lt_maxPages hv) hnone h).imp fun r k' hr => ⟨fun hok => ?_, fun hno => ?_⟩
  · obtain ⟨hmap, hb⟩ := hr.1 hok
    refine ⟨hmap, hb.of_eq ?_⟩
    have hheld := held_update (m := t.map) hv (some ⟨pa, perm⟩)
    rw [hnone, pageOf, add_zero, pageOf] at hheld
    rw [Table.pages, hmap, hheld]
    abel
  · obtain ⟨hmap, hb⟩ := hr.2 hno
    refine ⟨hmap, hb.of_eq ?_⟩
    abel

/-- **A page is taken and mapped** at a user address, and the code goes on with `g`. If there is no
page, or none for the nodes on the way, then it goes on with `f` and the map is as before. -/
theorem takePage_spec {α : Type} {f : Table → VM α} {g : ℕ → Table → VM α} {Q : α → Kmem → Prop}
    (h : Books W k (t.pages + F))
    (hv : ∀ x k', Books W k' ({x} + (t.pages + F)) → v < tfPage ∧ t.map v = none)
    (hf : ∀ t' k', Table.map t' = t.map → Books W k' (t'.pages + F) → Ends (f t' k') Q E)
    (hg : ∀ x t' k', v < tfPage → Table.map t' = update t.map v (some ⟨x, perm⟩) →
      Books W k' (t'.pages + F) → Ends (g x t' k') Q E) :
    Ends ((kalloc >>= fun mem => match mem with
      | none => f t
      | some mem => mappages t (v * pgsize) pgsize mem perm >>= fun r =>
          if r.1 then g mem r.2 else kfree mem >>= fun _ => f r.2) k) Q E := by
  refine Ends.bind (kalloc_spec h) fun o k' hk' => ?_
  cases o with
  | none => exact hf t k' rfl (hk'.of_eq (by simp))
  | some x =>
    rw [Option.elim_some] at hk'
    obtain ⟨hlt, hnone⟩ := hv x k' hk'
    have hbook : Books W k' (t.pages + ({x} + F)) := hk'.of_eq (by abel)
    refine Ends.bind (mappages_user hlt hnone hbook) fun r k'' hr => ?_
    cases hok : r.1 with
    | false =>
      obtain ⟨hmap, hb⟩ := hr.2 hok
      exact Ends.bind (kfree_spec hb) fun _ k₃ hk₃ => hf r.2 k₃ hmap hk₃
    | true =>
      obtain ⟨hmap, hb⟩ := hr.1 hok
      exact hg x r.2 k'' hlt hmap hb

/-- `mappages` of the trampoline or the trapframe. -/
theorem mappages_kernel (hv : tfPage ≤ v) (hv' : v < maxPages) (hnone : t.map v = none)
    (h : Books W k (t.pages + F)) : Ends (mappages t (v * pgsize) pgsize pa perm k) (fun r k' =>
      Books W k' (r.2.pages + F) ∧
        r.2.map = if r.1 then update t.map v (some ⟨pa, perm⟩) else t.map) E := by
  refine (mappages_spec hv' hnone h).imp fun r k' hr => ?_
  cases hok : r.1 with
  | true =>
    obtain ⟨hmap, hb⟩ := hr.1 hok
    refine ⟨hb.of_eq ?_, hmap⟩
    rw [Table.pages, hmap, held_update_of_le hv]
  | false =>
    obtain ⟨hmap, hb⟩ := hr.2 hok
    exact ⟨hb, hmap⟩

/-- What is left of a map when the pages from `v` up to `w` are gone. -/
def without (m : ℕ → Option Leaf) (v w : ℕ) (u : ℕ) : Option Leaf :=
  if v ≤ u ∧ u < w then none else m u

theorem without_of_le {m : ℕ → Option Leaf} (h : w ≤ v) : without m v w = m :=
  funext fun u => if_neg (by omega)

/-- Removing one page, and then the ones after it. -/
theorem without_succ {m m' : ℕ → Option Leaf} {n : ℕ} (h : ∀ u, u ≠ v → m' u = m u)
    (hv : m' v = none) : without m' (v + 1) (v + 1 + n) = without m v (v + (n + 1)) := by
  funext u
  unfold without
  by_cases huv : u = v
  · rw [huv, if_neg (by omega), if_pos (by omega), hv]
  · by_cases hu : v + 1 ≤ u ∧ u < v + 1 + n
    · rw [if_pos hu, if_pos (by omega)]
    · rw [if_neg hu, if_neg (by omega), h u huv]

theorem mul_pgsize_succ (v : ℕ) : v * pgsize + pgsize = (v + 1) * pgsize := by
  rw [Nat.add_mul, Nat.one_mul]

/-- What `walk` without allocation finds is what the map says. -/
theorem walk_lookup (t : Table) {va : ℕ} (hva : va < maxva) (k : Kmem) :
    ∃ b, walk t va false k = .ok ((b, t), k) ∧ (b = false → t.map (va / pgsize) = none) ∧
      (b = true → Radix.Reaches 2 t (va / pgsize) ∧ t.pte va = t.map (va / pgsize)) := by
  obtain ⟨b, hw, hb⟩ := walk_false t hva k
  refine ⟨b, hw, fun hf => ?_, fun ht => ⟨hb.mp ht, ?_⟩⟩
  · refine map_eq_none_of_not_reaches fun hr => ?_
    cases (hb.mpr hr).symm.trans hf
  · have hlt : va / pgsize < tablePages := by
      have := tablePages_eq
      have : va < 2 ^ 38 := hva
      show va / 4096 < tablePages
      omega
    rw [Table.pte, Table.map, if_pos hlt]

/-- The same for the address of a page. -/
theorem walk_page (t : Table) (hv : v < maxPages) (k : Kmem) :
    ∃ b, walk t (v * pgsize) false k = .ok ((b, t), k) ∧ (b = false → t.map v = none) ∧
      (b = true → Radix.Reaches 2 t v ∧ t.pte (v * pgsize) = t.map v) := by
  have := walk_lookup t (mul_pgsize_lt hv) k
  rwa [mul_pgsize_div] at this

theorem uvmunmapFrom_spec (n : ℕ) (hv : v + n ≤ tfPage) (h : Books W k (t.pages + F)) :
    Ends (uvmunmapFrom true n t (v * pgsize) k) (fun t' k' => Books W k' (t'.pages + F) ∧
      t'.map = without t.map v (v + n)) E := by
  induction n generalizing t v k with
  | zero => exact ⟨h, (without_of_le le_rfl).symm⟩
  | succ n ih =>
    have hmax : v < maxPages := lt_maxPages (by omega)
    -- nothing is mapped here
    have hskip : t.map v = none → Ends (uvmunmapFrom true n t (v * pgsize + pgsize) k)
        (fun t' k' => Books W k' (t'.pages + F) ∧ t'.map = without t.map v (v + (n + 1))) E := by
      intro hnone
      rw [mul_pgsize_succ]
      refine (ih (by omega) h).imp fun t' k' ht' => ⟨ht'.1, ht'.2.trans ?_⟩
      exact without_succ (fun _ _ => rfl) hnone
    obtain ⟨b, hw, hfalse, htrue⟩ := walk_page t hmax k
    rw [uvmunmapFrom, bind_of_ok hw]
    cases b with
    | false => exact hskip (hfalse rfl)
    | true =>
      obtain ⟨hr, hpte⟩ := htrue rfl
      rw [if_pos rfl, hpte]
      cases hm : t.map v with
      | none => exact hskip hm
      | some l =>
        have hset := map_setPte (o := none) hr (lt_tablePages hmax)
        have hheld := held_update (m := t.map) (by omega : v < tfPage) none
        rw [hm, pageOf, pageOf, add_zero] at hheld
        have hfree : Books W k ({l.ppn} + ((t.setPte (v * pgsize) none).pages + F)) := by
          refine h.of_eq ?_
          rw [Table.pages, Table.pages, nodes_setPte, hset, ← hheld]
          abel
        refine Ends.bind (kfree_spec hfree) fun _ k' hk' => ?_
        rw [mul_pgsize_succ]
        refine (ih (by omega) hk').imp fun t' k'' ht' => ⟨ht'.1, ht'.2.trans ?_⟩
        rw [hset]
        refine without_succ (fun u hu => update_of_ne hu _ _) ?_
        rw [update_self]

theorem uvmunmap_spec (n : ℕ) (hv : v + n ≤ tfPage) (h : Books W k (t.pages + F)) :
    Ends (uvmunmap t (v * pgsize) n true k) (fun t' k' => Books W k' (t'.pages + F) ∧
      t'.map = without t.map v (v + n)) E := by
  rw [uvmunmap, if_neg (mul_pgsize_aligned v)]
  exact uvmunmapFrom_spec n hv h

/-- `uvmunmap` of the trampoline or the trapframe. -/
theorem uvmunmap_kernel (hv : tfPage ≤ v) (hv' : v < maxPages) (h : Books W k (t.pages + F)) :
    Ends (uvmunmap t (v * pgsize) 1 false k) (fun t' k' => Books W k' (t'.pages + F) ∧
      t'.map = update t.map v none) E := by
  have hsame : t.map v = none → update t.map v none = t.map := fun hnone => by
    rw [← hnone, update_eq_self]
  obtain ⟨b, hw, hfalse, htrue⟩ := walk_page t hv' k
  rw [uvmunmap, if_neg (mul_pgsize_aligned v), uvmunmapFrom, bind_of_ok hw]
  cases b with
  | false => exact ⟨h, (hsame (hfalse rfl)).symm⟩
  | true =>
    obtain ⟨hr, hpte⟩ := htrue rfl
    rw [if_pos rfl, hpte]
    cases hm : t.map v with
    | none => exact ⟨h, (hsame hm).symm⟩
    | some l =>
      have hset := map_setPte (o := none) hr (lt_tablePages hv')
      refine ⟨h.of_eq ?_, hset⟩
      rw [Table.pages, Table.pages, nodes_setPte, hset, held_update_of_le hv]

/-! ## Freeing a table -/

theorem freewalkEntries_spec {β : Type} {free : β → VM Unit} {entry : Fin 512 → Option β}
    {node : β → Multiset ℕ} (hfree : ∀ i c, entry i = some c → ∀ k F, Books W k (node c + F) →
      Ends (free c k) (fun _ k' => Books W k' F) E)
    (is : List (Fin 512)) (h : Books W k ((is.map fun i => (entry i).elim 0 node).sum + F)) :
    Ends (freewalkEntries free entry is k) (fun _ k' => Books W k' F) E := by
  induction is generalizing k with
  | nil => exact h.of_eq (by simp)
  | cons i is ih =>
    rw [List.map_cons, List.sum_cons, add_assoc] at h
    rw [freewalkEntries]
    cases hi : entry i with
    | none =>
      rw [hi] at h
      exact ih (h.of_eq (by simp))
    | some c =>
      rw [hi] at h
      exact Ends.bind (hfree i c hi k _ h) fun _ k' hk' => ih hk'

theorem sum_entries {M : Type} [AddCommMonoid M] (f : Fin 512 → M) :
    (entries.map f).sum = ∑ i, f i := by
  unfold entries
  rw [Fin.sum_univ_def]

/-- One node with everything below it. -/
theorem freewalkNode_spec {β : Type} {free : β → VM Unit} {entry : Fin 512 → Option β}
    (node : β → Multiset ℕ) (hfree : ∀ i c, entry i = some c → ∀ k F, Books W k (node c + F) →
      Ends (free c k) (fun _ k' => Books W k' F) E)
    (h : Books W k ((x ::ₘ ∑ i, (entry i).elim 0 node) + F)) :
    Ends ((freewalkEntries free entry entries >>= fun _ => kfree x) k)
      (fun _ k' => Books W k' F) E := by
  refine Ends.bind (freewalkEntries_spec hfree _ (h.of_eq ?_)) fun _ k' hk' => kfree_spec hk'
  rw [sum_entries, ← singleton_add]
  abel

/-- **A table without leaves is freed completely.** -/
theorem freewalk_spec (n : ℕ) (t : Radix.Tree 512 Leaf n)
    (hnone : ∀ v < 512 ^ (n + 1), get n t v = none) (h : Books W k (nodes n t + F)) :
    Ends (freewalk n t k) (fun _ k' => Books W k' F) E := by
  induction n generalizing k F with
  | zero =>
    refine freewalkNode_spec (fun _ => 0) ?_ (h.of_eq ?_)
    · intro i c hc
      rw [entry_eq_none hnone i] at hc
      cases hc
    · have hsum : ∑ i, (t.entry i).elim 0 (fun _ => (0 : Multiset ℕ)) = 0 := by
        refine Finset.sum_eq_zero fun i _ => ?_
        rw [entry_eq_none hnone i]
        rfl
      rw [hsum, nodes_zero]
      rfl
  | succ n ih =>
    rw [nodes_succ] at h
    refine freewalkNode_spec (nodes n) ?_ h
    intro i c hc k F hb
    exact ih c (fun v hv => get_child_eq_none hnone hc hv) hb

end Vm

end TrinityXv6
