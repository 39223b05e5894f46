import TrinityXv6.Vm.PagingSpec

/-!
# What is done to address spaces

Specifications of the functions of `TrinityXv6.Vm.Paging` that work on ranges of user addresses, in
the terms of `TrinityXv6.Vm.PagingSpec`: what they do to the map of a table, and that no page is
lost or used twice.

Sizes are counted in bytes and maps in pages, so that `pgs` of a size is the first page that the
size does not reach.
-/

namespace TrinityXv6

namespace Vm

open Command
open Function (update_of_ne update_self)

variable {W : Ram} {k k' : Kmem} {F : Multiset ℕ} {t : Table} {x v w sz oldsz newsz : ℕ}
  {m m' m'' : ℕ → Option Leaf} {perm : Perm} {E : Panic → Prop}

/-! ## Sizes -/

/-- The number of pages that a size needs. -/
def pgs (sz : ℕ) : ℕ := (sz + (pgsize - 1)) / pgsize

theorem lt_pgs_iff : v < pgs sz ↔ v * pgsize < sz := by
  show v < (sz + 4095) / 4096 ↔ v * 4096 < sz
  omega

theorem div_lt_pgs (h : v < sz) : v / pgsize < pgs sz :=
  lt_pgs_iff.mpr ((Nat.div_mul_le_self v pgsize).trans_lt h)

theorem lt_maxva (hsz : sz ≤ Vm.trapframe) (h : v < sz) : v < maxva :=
  h.trans (hsz.trans_lt (by decide))

theorem le_pgs_mul (sz : ℕ) : sz ≤ pgs sz * pgsize := by
  show sz ≤ (sz + 4095) / 4096 * 4096
  omega

theorem pgs_mono (h : oldsz ≤ newsz) : pgs oldsz ≤ pgs newsz :=
  Nat.div_le_div_right (Nat.add_le_add_right h _)

@[simp] theorem pgs_mul (v : ℕ) : pgs (v * pgsize) = v := by
  show (v * 4096 + 4095) / 4096 = v
  omega

theorem pgs_le (h : sz ≤ Vm.trapframe) : pgs sz ≤ tfPage := by
  rw [trapframe_eq] at h
  exact (pgs_mono h).trans_eq (pgs_mul _)

theorem mul_pgsize_le (h : v ≤ tfPage) : v * pgsize ≤ Vm.trapframe := by
  rw [trapframe_eq]
  exact Nat.mul_le_mul_right _ h

theorem pgroundup_eq (h : sz ≤ Vm.trapframe) : pgroundup sz = pgs sz * pgsize := by
  have hlt : sz + (pgsize - 1) < 2 ^ 64 := by
    have := tfPage_eq
    rw [trapframe_eq] at h
    show sz + 4095 < 2 ^ 64
    have : sz ≤ tfPage * 4096 := h
    omega
  rw [pgroundup, Nat.mod_eq_of_lt hlt]
  rfl

theorem toInt_of_le (h : v ≤ tfPage) : toInt v = v := by
  have := tfPage_eq
  unfold toInt
  rw [if_pos (by omega)]
  omega

/-! ## Shrinking -/

theorem uvmdealloc_spec (hold : oldsz ≤ Vm.trapframe) (h : Books W k (t.pages + F)) :
    Ends (uvmdealloc t oldsz newsz k) (fun r k' => Books W k' (r.2.pages + F) ∧
      r.1 = min oldsz newsz ∧ r.2.map = without t.map (pgs newsz) (pgs oldsz)) E := by
  rw [uvmdealloc]
  by_cases hle : oldsz ≤ newsz
  · rw [if_pos hle]
    exact ⟨h, (min_eq_left hle).symm, (without_of_le (pgs_mono hle)).symm⟩
  · have hnew : newsz ≤ Vm.trapframe := by omega
    have hmin : newsz = min oldsz newsz := by omega
    rw [if_neg hle, pgroundup_eq hold, pgroundup_eq hnew]
    by_cases hlt : pgs newsz * pgsize < pgs oldsz * pgsize
    · have hpgs : pgs newsz ≤ pgs oldsz := pgs_mono (by omega)
      have hcount : toInt ((pgs oldsz * pgsize - pgs newsz * pgsize) / pgsize) =
          pgs oldsz - pgs newsz := by
        rw [← Nat.sub_mul, mul_pgsize_div]
        exact toInt_of_le ((Nat.sub_le _ _).trans (pgs_le hold))
      have hend : pgs newsz + (pgs oldsz - pgs newsz) = pgs oldsz := by omega
      rw [if_pos hlt, hcount]
      refine Ends.bind (uvmunmap_spec _ (hend.trans_le (pgs_le hold)) h) fun t' k' ht' => ?_
      rw [hend] at ht'
      exact ⟨ht'.1, hmin, ht'.2⟩
    · have hpgs : pgs oldsz ≤ pgs newsz := by
        by_contra hpgs
        exact hlt (Nat.mul_lt_mul_of_pos_right (by omega) (by decide))
      rw [if_neg hlt]
      exact ⟨h, hmin, (without_of_le hpgs).symm⟩

/-! ## Growing -/

/-- The pages from `v` up to `w` have been mapped. -/
structure Grown (perm : Perm) (v w : ℕ) (m m' : ℕ → Option Leaf) : Prop where
  free : ∀ u, v ≤ u → u < w → m u = none
  new : ∀ u, v ≤ u → u < w → ∃ x, m' u = some ⟨x, perm⟩
  same : ∀ u, u < v ∨ w ≤ u → m' u = m u

theorem Grown.refl (perm : Perm) (v : ℕ) (m : ℕ → Option Leaf) : Grown perm v v m m :=
  ⟨fun u h h' => absurd h (by omega), fun u h h' => absurd h (by omega), fun _ _ => rfl⟩

theorem Grown.succ (h : Grown perm v w m m') (hvw : v ≤ w) (hnone : m w = none) :
    Grown perm v (w + 1) m (Function.update m' w (some ⟨x, perm⟩)) := by
  refine ⟨fun u hv hw => ?_, fun u hv hw => ?_, fun u hu => ?_⟩
  · by_cases huw : u = w
    · rw [huw, hnone]
    · exact h.free u hv (by omega)
  · by_cases huw : u = w
    · exact ⟨x, by rw [huw, update_self]⟩
    · rw [update_of_ne huw]
      exact h.new u hv (by omega)
  · rw [update_of_ne (by omega)]
    exact h.same u (by omega)

/-- Unmapping them again. -/
theorem Grown.undo (h : Grown perm v w m m') : without m' v w = m := by
  funext u
  unfold without
  by_cases hu : v ≤ u ∧ u < w
  · rw [if_pos hu, h.free u hu.1 hu.2]
  · rw [if_neg hu]
    exact h.same u (by omega)

theorem uvmallocUndo_spec (hg : Grown perm v w m t.map) (hw : w ≤ tfPage)
    (h : Books W k (t.pages + F)) :
    Ends (uvmallocUndo t (w * pgsize) (v * pgsize) k) (fun r k' => Books W k' (r.2.pages + F) ∧
      r.1 = 0 ∧ r.2.map = m) E := by
  rw [uvmallocUndo]
  refine Ends.bind (uvmdealloc_spec (mul_pgsize_le hw) h) fun r k' hr => ⟨hr.1, rfl, ?_⟩
  rw [hr.2.2, pgs_mul, pgs_mul]
  exact hg.undo

/-- An address space without holes does not reach the trapframe while there is a page left: there
are too few pages. -/
theorem lt_tfPage_of_full (hv : v ≤ tfPage) (hm : ∀ u < v, t.map u ≠ none)
    (h : Books W k ({x} + (t.pages + F))) : v < tfPage := by
  have hheld := le_card_held hv hm
  have hnodes : 0 < (Radix.nodes 2 t).card :=
    Multiset.card_pos_iff_exists_mem.mpr ⟨_, Radix.root_mem_nodes 2 t⟩
  have hcard := W.card
  rw [← h.sum, Table.pages, Multiset.card_add, Multiset.card_add, Multiset.card_add,
    Multiset.card_add, Multiset.card_singleton] at hcard
  have := maxPages_eq
  have := tfPage_eq
  omega

theorem uvmallocFrom_spec (n : ℕ) (hg : Grown perm v w m t.map) (hvw : v ≤ w) (hw : w ≤ tfPage)
    (hnone : ∀ u, v ≤ u → u < tfPage → m u = none)
    (hroom : newsz ≤ Vm.trapframe ∨ ∀ u < v, m u ≠ none)
    (hend : newsz ≤ (w + n) * pgsize) (hlast : v < w + n → (w + n) * pgsize < newsz + pgsize)
    (h : Books W k (t.pages + F)) :
    Ends (uvmallocFrom (v * pgsize) newsz perm n t (w * pgsize) k) (fun r k' =>
      Books W k' (r.2.pages + F) ∧ (r.1 = 0 → r.2.map = m) ∧
      (r.1 ≠ 0 → r.1 = newsz ∧ newsz ≤ Vm.trapframe ∧ Grown perm v (w + n) m r.2.map)) E := by
  induction n generalizing t w k with
  | zero =>
    refine ⟨h, fun hz => ?_, fun _ => ⟨rfl, hend.trans (mul_pgsize_le hw), hg⟩⟩
    have hwv : w ≤ v := by
      by_contra hlt
      have hl : w * 4096 < newsz + 4096 := hlast (by omega)
      omega
    rw [← hg.undo, without_of_le hwv]
  | succ n ih =>
    have hfail : ∀ {t' : Table} {k' : Kmem}, t'.map = t.map → Books W k' (t'.pages + F) →
        Ends (uvmallocUndo t' (w * pgsize) (v * pgsize) k') (fun r k' =>
          Books W k' (r.2.pages + F) ∧ (r.1 = 0 → r.2.map = m) ∧ (r.1 ≠ 0 →
            r.1 = newsz ∧ newsz ≤ Vm.trapframe ∧ Grown perm v (w + (n + 1)) m r.2.map)) E := by
      intro t' k' ht' hb
      rw [← ht'] at hg
      refine (uvmallocUndo_spec hg hw hb).imp fun r k'' hr => ⟨hr.1, fun _ => hr.2.2, fun hz => ?_⟩
      exact absurd hr.2.1 hz
    rw [uvmallocFrom]
    refine takePage_spec (g := fun _ t' =>
      uvmallocFrom (v * pgsize) newsz perm n t' (w * pgsize + pgsize)) h (fun x k' hk' => ?_)
      (fun t' k' => hfail) fun x t' k' hlt hmap hb => ?_
    · -- the page is below the trapframe: the size says so, or there are too few pages
      have hlt : w < tfPage := by
        rcases hroom with hsz | hfull
        · rw [trapframe_eq] at hsz
          have hl := hlast (by omega)
          have : (w + (n + 1)) * 4096 < newsz + 4096 := hl
          have : newsz ≤ tfPage * 4096 := hsz
          omega
        · refine lt_tfPage_of_full hw (fun u hu => ?_) hk'
          by_cases huv : u < v
          · rw [hg.same u (.inl huv)]
            exact hfull u huv
          · obtain ⟨y, hy⟩ := hg.new u (by omega) hu
            rw [hy]
            exact nofun
      refine ⟨hlt, ?_⟩
      rw [hg.same w (.inr le_rfl)]
      exact hnone w hvw hlt
    · have hg' : Grown perm v (w + 1) m (Table.map t') := by
        rw [hmap]
        exact hg.succ hvw (hnone w hvw hlt)
      have he : w + 1 + n = w + (n + 1) := by omega
      have := ih hg' (by omega) (by omega) (by rwa [he]) (by rwa [he]) hb
      rwa [he, ← mul_pgsize_succ] at this

/-- `uvmalloc` maps all pages of the new size, or none. It needs the address space to be empty from
the old size on, and the new size to be small or all pages up to the old one to be mapped. -/
theorem uvmalloc_spec {a b : Bool} (hold : oldsz ≤ Vm.trapframe)
    (hnone : ∀ u, pgs oldsz ≤ u → u < tfPage → t.map u = none)
    (hroom : newsz ≤ Vm.trapframe ∨ ∀ u < pgs oldsz, t.map u ≠ none) (h : Books W k (t.pages + F)) :
    Ends (uvmalloc t oldsz newsz a b k) (fun r k' => Books W k' (r.2.pages + F) ∧
      (r.1 = 0 → r.2.map = t.map) ∧ (r.1 ≠ 0 → r.1 = max oldsz newsz ∧ r.1 ≤ Vm.trapframe ∧
        Grown ⟨a, b, true⟩ (pgs oldsz) (pgs r.1) t.map r.2.map)) E := by
  rw [uvmalloc]
  by_cases hlt : newsz < oldsz
  · rw [if_pos hlt]
    exact ⟨h, fun _ => rfl, fun _ => ⟨by dsimp only; omega, hold, .refl _ _ _⟩⟩
  · rw [if_neg hlt, pgroundup_eq hold]
    have hend : pgs oldsz + (newsz - pgs oldsz * pgsize + (pgsize - 1)) / pgsize = pgs newsz := by
      have hmono := pgs_mono (Nat.not_lt.mp hlt)
      have hpgs : pgs newsz = (newsz + 4095) / 4096 := rfl
      show pgs oldsz + (newsz - pgs oldsz * 4096 + 4095) / 4096 = pgs newsz
      omega
    have hsize := le_pgs_mul newsz
    have hlast : pgs oldsz < pgs newsz → pgs newsz * pgsize < newsz + pgsize := by
      intro _
      show (newsz + 4095) / 4096 * 4096 < newsz + 4096
      omega
    rw [← hend] at hsize hlast
    refine (uvmallocFrom_spec _ (.refl _ _ _) le_rfl (pgs_le hold) hnone hroom hsize hlast h).imp
      fun r k' hr => ⟨hr.1, hr.2.1, fun hz => ?_⟩
    obtain ⟨hr₁, hle, hg⟩ := hr.2.2 hz
    rw [hend] at hg
    rw [hr₁]
    exact ⟨by omega, hle, hg⟩

/-! ## Freeing -/

theorem uvmfree_spec (hsz : sz ≤ Vm.trapframe) (hnone : ∀ u, pgs sz ≤ u → t.map u = none)
    (h : Books W k (t.pages + F)) : Ends (uvmfree t sz k) (fun _ k' => Books W k' F) E := by
  have hall : ∀ m : ℕ → Option Leaf, (∀ u, pgs sz ≤ u → m u = none) →
      without m 0 (pgs sz) = fun _ => none := by
    intro m hm
    funext u
    unfold without
    by_cases hu : u < pgs sz
    · rw [if_pos ⟨Nat.zero_le u, hu⟩]
    · rw [if_neg (by omega), hm u (by omega)]
  have hunmap : Ends (uvmunmapSize t sz k) (fun t' k' => Books W k' (t'.pages + F) ∧
      t'.map = fun _ => none) E := by
    rw [uvmunmapSize]
    by_cases hpos : 0 < sz
    · have hspec := uvmunmap_spec (E := E) (pgs sz)
        (by rw [Nat.zero_add]; exact pgs_le hsz) h
      rw [Nat.zero_mul, Nat.zero_add, hall _ hnone] at hspec
      rwa [if_pos hpos, pgroundup_eq hsz, mul_pgsize_div]
    · obtain rfl : sz = 0 := by omega
      rw [if_neg hpos]
      exact ⟨h, funext fun u => hnone u (Nat.zero_le u)⟩
  rw [uvmfree]
  refine Ends.bind hunmap fun t' k' ht' => freewalk_spec 2 t' (fun v hv => ?_) (ht'.1.of_eq ?_)
  · have hmap := congrFun ht'.2 v
    rwa [Table.map, if_pos (show v < tablePages from hv)] at hmap
  · rw [Table.pages, ht'.2, held_none, add_zero]

/-! ## Copying -/

/-- The permissions of a leaf. -/
def permOf (o : Option Leaf) : Option Perm := o.map Leaf.perm

/-- The pages below `v` have been copied from `m₀`, to a map that had none there. -/
structure Copied (m₀ : ℕ → Option Leaf) (v : ℕ) (m m' : ℕ → Option Leaf) : Prop where
  copied : ∀ u < v, permOf (m' u) = permOf (m₀ u)
  same : ∀ u, v ≤ u → m' u = m u

variable {m₀ : ℕ → Option Leaf} {old new : Table}

/-- Nothing is mapped at the next page. -/
theorem Copied.skip (h : Copied m₀ v m m') (hnone : m₀ v = none) (hfree : m v = none) :
    Copied m₀ (v + 1) m m' := by
  refine ⟨fun u hu => ?_, fun u hu => h.same u (by omega)⟩
  by_cases huv : u = v
  · rw [huv, hnone, h.same v le_rfl, hfree]
  · exact h.copied u (by omega)

/-- The next page has been copied. -/
theorem Copied.succ {l : Leaf} (h : Copied m₀ v m m') (hl : m₀ v = some l) :
    Copied m₀ (v + 1) m (Function.update m' v (some ⟨x, l.perm⟩)) := by
  refine ⟨fun u hu => ?_, fun u hu => ?_⟩
  · by_cases huv : u = v
    · rw [huv, hl, update_self]
      rfl
    · rw [update_of_ne huv]
      exact h.copied u (by omega)
  · rw [update_of_ne (by omega)]
    exact h.same u (by omega)

theorem Copied.undo (h : Copied m₀ v m m') (hfree : ∀ u < v, m u = none) : without m' 0 v = m := by
  funext u
  unfold without
  by_cases hu : u < v
  · rw [if_pos ⟨Nat.zero_le u, hu⟩, hfree u hu]
  · rw [if_neg (by omega)]
    exact h.same u (by omega)

theorem uvmcopyErr_spec (hc : Copied m₀ v m new.map) (hfree : ∀ u < v, m u = none)
    (hv : v ≤ tfPage) (h : Books W k (new.pages + F)) :
    Ends (uvmcopyErr new (v * pgsize) k) (fun r k' => Books W k' (r.2.pages + F) ∧
      r.1 = false ∧ r.2.map = m) E := by
  have hspec := uvmunmap_spec (E := E) v (by rwa [Nat.zero_add]) h
  rw [Nat.zero_mul, Nat.zero_add, hc.undo hfree] at hspec
  rw [uvmcopyErr, mul_pgsize_div]
  exact Ends.bind hspec fun t k' ht => ⟨ht.1, rfl, ht.2⟩

theorem uvmcopyFrom_spec (n : ℕ) (hc : Copied old.map v m new.map)
    (hfree : ∀ u < tfPage, m u = none) (hv : v + n ≤ tfPage) (h : Books W k (new.pages + F)) :
    Ends (uvmcopyFrom old n new (v * pgsize) k) (fun r k' => Books W k' (r.2.pages + F) ∧
      (r.1 = false → r.2.map = m) ∧ (r.1 = true → Copied old.map (v + n) m r.2.map)) E := by
  induction n generalizing new v k with
  | zero => exact ⟨h, nofun, fun _ => hc⟩
  | succ n ih =>
    have hlt : v < tfPage := by omega
    have he : v + 1 + n = v + (n + 1) := by omega
    have hnext : ∀ {new' : Table} {k' : Kmem}, Copied old.map (v + 1) m new'.map →
        Books W k' (new'.pages + F) →
        Ends (uvmcopyFrom old n new' (v * pgsize + pgsize) k') (fun r k' =>
          Books W k' (r.2.pages + F) ∧ (r.1 = false → r.2.map = m) ∧
          (r.1 = true → Copied old.map (v + (n + 1)) m r.2.map)) E := by
      intro new' k' hc' hb
      have := ih hc' (by omega) hb
      rwa [he, ← mul_pgsize_succ] at this
    have hskip : old.map v = none → Ends (uvmcopyFrom old n new (v * pgsize + pgsize) k)
        (fun r k' => Books W k' (r.2.pages + F) ∧ (r.1 = false → r.2.map = m) ∧
          (r.1 = true → Copied old.map (v + (n + 1)) m r.2.map)) E :=
      fun hnone => hnext (hc.skip hnone (hfree v hlt)) h
    have hfail : ∀ {new' : Table} {k' : Kmem}, new'.map = new.map → Books W k' (new'.pages + F) →
        Ends (uvmcopyErr new' (v * pgsize) k') (fun r k' => Books W k' (r.2.pages + F) ∧
          (r.1 = false → r.2.map = m) ∧
          (r.1 = true → Copied old.map (v + (n + 1)) m r.2.map)) E := by
      intro new' k' hmap hb
      rw [← hmap] at hc
      refine (uvmcopyErr_spec hc (fun u hu => hfree u (by omega)) hlt.le hb).imp
        fun r k'' hr => ⟨hr.1, fun _ => hr.2.2, fun ht => ?_⟩
      cases hr.2.1.symm.trans ht
    obtain ⟨b, hw, hfalse, htrue⟩ := walk_page old (lt_maxPages hlt) k
    rw [uvmcopyFrom, bind_of_ok hw]
    cases b with
    | false => exact hskip (hfalse rfl)
    | true =>
      rw [if_pos rfl, (htrue rfl).2]
      cases hl : old.map v with
      | none => exact hskip hl
      | some l =>
        have hnone : new.map v = none := by
          rw [hc.same v le_rfl]
          exact hfree v hlt
        refine takePage_spec h (fun _ _ _ => ⟨hlt, hnone⟩)
          (fun t' k' => hfail) fun x t' k' _ hmap hb => hnext ?_ hb
        rw [hmap]
        exact hc.succ hl

/-- `uvmcopy` copies all pages below the size, or none. -/
theorem uvmcopy_spec (hsz : sz ≤ Vm.trapframe) (hfree : ∀ u < tfPage, new.map u = none)
    (h : Books W k (new.pages + F)) :
    Ends (uvmcopy old new sz k) (fun r k' => Books W k' (r.2.pages + F) ∧
      (r.1 = false → r.2.map = new.map) ∧
      (r.1 = true → Copied old.map (pgs sz) new.map r.2.map)) E := by
  have hc : Copied old.map 0 new.map new.map := ⟨fun u hu => absurd hu (by omega), fun _ _ => rfl⟩
  have := uvmcopyFrom_spec (E := E) (pgs sz) hc hfree (by rw [Nat.zero_add]; exact pgs_le hsz) h
  rwa [Nat.zero_mul, Nat.zero_add] at this

/-- `uvmclear` takes a mapped page from the user. -/
theorem uvmclear_spec {l : Leaf} (hv : v < tfPage) (hl : t.map v = some l)
    (h : Books W k (t.pages + F)) :
    Ends (uvmclear t (v * pgsize) k) (fun t' k' => Books W k' (t'.pages + F) ∧
      t'.map = Function.update t.map v (some { l with perm := { l.perm with u := false } })) E := by
  have hmax := lt_maxPages hv
  obtain ⟨b, hw, hfalse, htrue⟩ := walk_page t hmax k
  rw [uvmclear, bind_of_ok hw]
  cases b with
  | false => cases hl.symm.trans (hfalse rfl)
  | true =>
    obtain ⟨hr, hpte⟩ := htrue rfl
    rw [if_pos rfl, hpte, hl]
    have hset := map_setPte (o := some { l with perm := { l.perm with u := false } }) hr
      (lt_tablePages hmax)
    refine ⟨h.of_eq ?_, hset⟩
    have hheld := held_update (m := t.map) hv
      (some { l with perm := { l.perm with u := false } })
    rw [hl, pageOf, pageOf] at hheld
    rw [Table.pages, Table.pages, Option.map_some, nodes_setPte, hset, add_right_cancel hheld]

/-! ## Access to user memory -/

theorem walkaddr_eq (t : Table) (va : ℕ) (k : Kmem) :
    walkaddr t va k = .ok (if va < maxva then (t.map (va / pgsize)).bind fun l =>
      if l.perm.u then some l.ppn else none else none, k) := by
  rw [walkaddr]
  by_cases hva : va < maxva
  · obtain ⟨b, hw, hfalse, htrue⟩ := walk_lookup t hva k
    rw [if_neg (Nat.not_le.mpr hva), if_pos hva, bind_of_ok hw]
    cases b with
    | false =>
      rw [hfalse rfl]
      rfl
    | true =>
      rw [if_pos rfl, (htrue rfl).2]
      cases t.map (va / pgsize) <;> rfl
  · rw [if_pos (Nat.not_lt.mp hva), if_neg hva]
    rfl

theorem ismapped_eq (t : Table) (hv : v < maxPages) (k : Kmem) :
    ismapped t (v * pgsize) k = .ok ((t.map v).isSome, k) := by
  obtain ⟨b, hw, hfalse, htrue⟩ := walk_page t hv k
  rw [ismapped, bind_of_ok hw]
  cases b with
  | false =>
    rw [hfalse rfl]
    rfl
  | true =>
    rw [(htrue rfl).2, Bool.true_and]
    rfl

/-- Pages below `b` may have been mapped on demand. -/
def Extends (b : ℕ) (m m' : ℕ → Option Leaf) : Prop :=
  ∀ u, m' u = m u ∨ m u = none ∧ u < b ∧ ∃ x, m' u = some ⟨x, ⟨true, false, true⟩⟩

theorem Extends.refl (b : ℕ) (m : ℕ → Option Leaf) : Extends b m m := fun _ => .inl rfl

theorem Extends.trans {b : ℕ} (h : Extends b m m') (h' : Extends b m' m'') : Extends b m m'' := by
  intro u
  rcases h' u with hsame | ⟨hnone, hb, x, hx⟩
  · rw [hsame]
    exact h u
  · rcases h u with hsame | ⟨_, _, y, hy⟩
    · exact .inr ⟨hsame ▸ hnone, hb, x, hx⟩
    · cases hnone.symm.trans hy

theorem vmfaultMap_spec (hv : v < tfPage) (hnone : t.map v = none) (h : Books W k (t.pages + F)) :
    Ends (vmfaultMap t (v * pgsize) k) (fun r k' => Books W k' (r.2.pages + F) ∧
      (r.1 = none → r.2.map = t.map) ∧ ∀ x, r.1 = some x →
        r.2.map = Function.update t.map v (some ⟨x, ⟨true, false, true⟩⟩)) E := by
  rw [vmfaultMap]
  refine takePage_spec (f := fun t' => pure (none, t')) (g := fun x t' => pure (some x, t')) h
    (fun _ _ _ => ⟨hv, hnone⟩) (fun t' k' hmap hb => ⟨hb, fun _ => hmap, nofun⟩)
    fun x t' k' _ hmap hb => ⟨hb, nofun, fun y hy => ?_⟩
  cases hy
  exact hmap

/-- What access to user memory does to an address space. -/
def Demanded {α : Type} (W : Ram) (F : Multiset ℕ) (sz : ℕ) (t : Table) (r : α × Table) (k : Kmem) :
    Prop := Books W k (r.2.pages + F) ∧ Extends (pgs sz) t.map r.2.map

variable {va dstva srcva len max nul : ℕ} (hsz : sz ≤ Vm.trapframe) (h : Books W k (t.pages + F))
include hsz h

/-- `vmfault` maps the page that is missing, if it is one of the process, or does nothing. -/
theorem vmfault_spec : Ends (vmfault t sz va k) (fun r k' => Books W k' (r.2.pages + F) ∧
      Extends (pgs sz) t.map r.2.map ∧ (r.1 = none → r.2.map = t.map) ∧
      (r.1.isSome → va < sz ∧ r.2.map (va / pgsize) ≠ none)) E := by
  rw [vmfault]
  by_cases hva : sz ≤ va
  · rw [if_pos hva]
    exact ⟨h, .refl _ _, fun _ => rfl, nofun⟩
  · have hpage := div_lt_pgs (Nat.not_le.mp hva)
    have htf : va / pgsize < tfPage := hpage.trans_le (pgs_le hsz)
    rw [if_neg hva, pgrounddown, bind_of_ok (ismapped_eq t (lt_maxPages htf) k)]
    cases hm : t.map (va / pgsize) with
    | some l => exact ⟨h, .refl _ _, fun _ => rfl, nofun⟩
    | none =>
      refine (vmfaultMap_spec htf hm h).imp fun r k' hr => ⟨hr.1, ?_, hr.2.1, fun hsome => ?_⟩
      · cases hr₁ : r.1 with
        | none =>
          rw [hr.2.1 hr₁]
          exact .refl _ _
        | some x =>
          rw [hr.2.2 x hr₁]
          intro u
          by_cases hu : u = va / pgsize
          · exact .inr ⟨hu ▸ hm, hu ▸ hpage, x, by rw [hu, update_self]⟩
          · exact .inl (update_of_ne hu _ _)
      · obtain ⟨x, hx⟩ := Option.isSome_iff_exists.mp hsome
        rw [hr.2.2 x hx, update_self]
        exact ⟨Nat.not_le.mp hva, nofun⟩

theorem userPage_spec : Ends (userPage t sz va k) (fun r k' => Books W k' (r.2.pages + F) ∧
      Extends (pgs sz) t.map r.2.map ∧
      (r.1.isSome → va < maxva ∧ r.2.map (va / pgsize) ≠ none)) E := by
  rw [userPage, bind_of_ok (walkaddr_eq t va k)]
  cases ho : (if va < maxva then (t.map (va / pgsize)).bind fun l =>
      if l.perm.u then some l.ppn else none else none) with
  | none =>
    refine (vmfault_spec hsz h).imp fun r k' hr => ⟨hr.1, hr.2.1, fun hsome => ?_⟩
    obtain ⟨hlt, hmap⟩ := hr.2.2.2 hsome
    exact ⟨lt_maxva hsz hlt, hmap⟩
  | some pa =>
    refine ⟨h, .refl _ _, fun _ => ?_⟩
    by_cases hva : va < maxva
    · refine ⟨hva, fun hnone => ?_⟩
      rw [if_pos hva, hnone] at ho
      cases ho
    · rw [if_neg hva] at ho
      cases ho

theorem copyoutFrom_spec (turns : ℕ) :
    Ends (copyoutFrom sz turns t dstva len k) (Demanded W F sz t) E := by
  induction turns generalizing t dstva len k with
  | zero => exact ⟨h, .refl _ _⟩
  | succ turns ih =>
    rw [copyoutFrom]
    by_cases hlen : len = 0
    · rw [if_pos hlen]
      exact ⟨h, .refl _ _⟩
    by_cases hva : maxva ≤ pgrounddown dstva
    · rw [if_neg hlen, if_pos hva]
      exact ⟨h, .refl _ _⟩
    rw [if_neg hlen, if_neg hva]
    refine Ends.bind (userPage_spec hsz h) fun r k' hr => ?_
    obtain ⟨hb, hext, hpage⟩ := hr
    cases hr₁ : r.1 with
    | none => exact ⟨hb, hext⟩
    | some pa =>
      obtain ⟨hlt, hmap⟩ := hpage (by rw [hr₁]; rfl)
      obtain ⟨b, hw, hfalse, -⟩ := walk_lookup r.2 hlt k'
      dsimp only
      rw [bind_of_ok hw]
      cases b with
      | false => exact absurd (hfalse rfl) hmap
      | true =>
        rw [if_pos rfl]
        split_ifs
        · exact (ih hb).imp fun r' k'' hr' => ⟨hr'.1, hext.trans hr'.2⟩
        · exact ⟨hb, hext⟩

/-- `copyout` does nothing to the address space but map pages of the process that are missing. -/
theorem copyout_spec : Ends (copyout t sz dstva len k) (Demanded W F sz t) E :=
  copyoutFrom_spec hsz h len

theorem copyinFrom_spec (turns : ℕ) :
    Ends (copyinFrom sz turns t srcva len k) (Demanded W F sz t) E := by
  induction turns generalizing t srcva len k with
  | zero => exact ⟨h, .refl _ _⟩
  | succ turns ih =>
    rw [copyinFrom]
    by_cases hlen : len = 0
    · rw [if_pos hlen]
      exact ⟨h, .refl _ _⟩
    rw [if_neg hlen]
    refine Ends.bind (userPage_spec hsz h) fun r k' hr => ?_
    obtain ⟨hb, hext, -⟩ := hr
    cases hr₁ : r.1 with
    | none => exact ⟨hb, hext⟩
    | some pa => exact (ih hb).imp fun r' k'' hr' => ⟨hr'.1, hext.trans hr'.2⟩

/-- `copyin`, likewise -/
theorem copyin_spec : Ends (copyin t sz srcva len k) (Demanded W F sz t) E :=
  copyinFrom_spec hsz h len

theorem copyinstrFrom_spec (turns : ℕ) :
    Ends (copyinstrFrom sz turns t srcva max nul k) (Demanded W F sz t) E := by
  induction turns generalizing t srcva max nul k with
  | zero => exact ⟨h, .refl _ _⟩
  | succ turns ih =>
    rw [copyinstrFrom]
    by_cases hmax : max = 0
    · rw [if_pos hmax]
      exact ⟨h, .refl _ _⟩
    rw [if_neg hmax]
    refine Ends.bind (userPage_spec hsz h) fun r k' hr => ?_
    obtain ⟨hb, hext, -⟩ := hr
    cases hr₁ : r.1 with
    | none => exact ⟨hb, hext⟩
    | some pa =>
      split_ifs
      · exact ⟨hb, hext⟩
      · exact (ih hb).imp fun r' k'' hr' => ⟨hr'.1, hext.trans hr'.2⟩

/-- `copyinstr`, likewise -/
theorem copyinstr_spec : Ends (copyinstr t sz srcva max nul k) (Demanded W F sz t) E :=
  copyinstrFrom_spec hsz h max

end Vm

end TrinityXv6
