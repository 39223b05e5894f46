import TrinityXv6.Vm.ContentsRefine

/-!
# Address spaces as their users see them

For its user an address space is a size and, for every page, permissions and contents. A page that
is not mapped is a page of zeros that can be read and written, whether it is below the size or not:
this is what it will be when it is mapped, eagerly or on demand.

The specifications of this module say that the functions of `TrinityXv6.Vm.Contents` do to this what
they should, as long as no allocation fails. Which pages are mapped does not matter for the outcome.
-/

namespace TrinityXv6

namespace Vm

open Command
open Multiset
open Function (update_self update_of_ne update_eq_self update_idem)

/-- A page that has not been used: zeros, for reading and writing. -/
def fresh : Perm × Page := (⟨true, false, true⟩, .fill 0)

/-- An address space: the size, and the permissions and the contents of pages. -/
structure Space where
  sz : ℕ
  page : ℕ → Perm × Page

namespace Space

/-- The page at a page number, if the user has access to it. -/
def user (s : Space) (v : ℕ) : Option (Perm × Page) :=
  if v < pgs s.sz ∧ (s.page v).1.u then some (s.page v) else none

/-- Write to a page. -/
def write (s : Space) (v off : ℕ) (src : List UInt8) : Space :=
  { s with page := Function.update s.page v ((s.page v).1, (s.page v).2.write off src) }

/-- Read a byte. -/
def load (s : Space) (va : ℕ) : Option UInt8 × Space :=
  ((s.user (va / pgsize)).map fun x => x.2 (va % pgsize), s)

/-- Write a byte. -/
def store (s : Space) (va : ℕ) (b : UInt8) : Bool × Space :=
  if (s.user (va / pgsize)).any fun x => x.1.w then (true, s.write (va / pgsize) (va % pgsize) [b])
  else (false, s)

/-- Copy bytes into the address space, page by page. -/
def copyoutFrom : ℕ → Space → ℕ → List UInt8 → Bool × Space
  | 0, s, _, _ => (true, s)
  | turns + 1, s, dstva, src =>
    if src.length = 0 then (true, s)
    else if (s.user (dstva / pgsize)).any fun x => x.1.w then
      copyoutFrom turns
        (s.write (dstva / pgsize) (dstva - pgrounddown dstva)
          (src.take (pgsize - (dstva - pgrounddown dstva))))
        (pgrounddown dstva + pgsize) (src.drop (pgsize - (dstva - pgrounddown dstva)))
    else (false, s)

/-- Copy bytes out of the address space, page by page. -/
def copyinFrom (s : Space) : ℕ → List UInt8 → ℕ → ℕ → Bool × List UInt8
  | 0, dst, _, _ => (true, dst)
  | turns + 1, dst, srcva, len =>
    if len = 0 then (true, dst)
    else match s.user (srcva / pgsize) with
      | none => (false, dst)
      | some x =>
        copyinFrom s turns
          (dst ++ x.2.bytes (srcva - pgrounddown srcva)
            (min len (pgsize - (srcva - pgrounddown srcva))))
          (pgrounddown srcva + pgsize) (len - (pgsize - (srcva - pgrounddown srcva)))

/-- Copy a string out of the address space, page by page. -/
def copyinstrFrom (s : Space) : ℕ → List UInt8 → ℕ → ℕ → Bool × List UInt8
  | 0, dst, _, _ => (false, dst)
  | turns + 1, dst, srcva, max =>
    if max = 0 then (false, dst)
    else match s.user (srcva / pgsize) with
      | none => (false, dst)
      | some x =>
        let bs := x.2.bytes (srcva - pgrounddown srcva)
          (min max (pgsize - (srcva - pgrounddown srcva)))
        if (0 : UInt8) ∈ bs then (true, dst ++ Frames.untilNul bs)
        else
          copyinstrFrom s turns (dst ++ bs) (pgrounddown srcva + pgsize)
            (max - (pgsize - (srcva - pgrounddown srcva)))

end Space

/-! ## The pages that a user sees -/

/-- The pages of a map: the leaves below the trapframe, and fresh pages elsewhere. -/
def pagesOf (data : ℕ → Page) (m : ℕ → Option Leaf) (v : ℕ) : Perm × Page :=
  if v < tfPage then (m v).elim fresh fun l => (l.perm, data l.ppn) else fresh

section Pages

variable {data data' : ℕ → Page} {m m' : ℕ → Option Leaf} {v x : ℕ} {l : Leaf}

theorem pagesOf_of_le (hv : tfPage ≤ v) : pagesOf data m v = fresh := if_neg (by omega)

theorem pagesOf_of_none (h : m v = none) : pagesOf data m v = fresh := by
  rw [pagesOf, h]
  exact ite_self _

theorem pagesOf_of_some (hv : v < tfPage) (h : m v = some l) :
    pagesOf data m v = (l.perm, data l.ppn) := by
  rw [pagesOf, if_pos hv, h]
  rfl

/-- Only the pages that are mapped matter. -/
theorem pagesOf_congr (h : ∀ x ∈ held tfPage m, data' x = data x) :
    pagesOf data' m = pagesOf data m := by
  funext v
  by_cases hv : v < tfPage
  · cases hm : m v with
    | none => rw [pagesOf_of_none hm, pagesOf_of_none hm]
    | some l =>
      have hl : l.ppn ∈ held tfPage m := mem_held_iff.mpr ⟨v, l, hv, hm, rfl⟩
      rw [pagesOf_of_some hv hm, pagesOf_of_some hv hm, h l.ppn hl]
  · rw [pagesOf_of_le (Nat.not_lt.mp hv), pagesOf_of_le (Nat.not_lt.mp hv)]

/-- A page is mapped at an address. -/
theorem pagesOf_update (hv : v < tfPage) (perm : Perm) (hx : x ∉ held tfPage m) (c : Page) :
    pagesOf (Function.update data x c) (Function.update m v (some ⟨x, perm⟩)) =
      Function.update (pagesOf data m) v (perm, c) := by
  funext u
  by_cases huv : u = v
  · rw [huv, update_self, pagesOf_of_some hv (update_self ..), update_self]
  · have hkeep : pagesOf (Function.update data x c) m = pagesOf data m := by
      refine pagesOf_congr fun y hy => update_of_ne ?_ ..
      rintro rfl
      exact hx hy
    rw [update_of_ne huv, ← hkeep, pagesOf, pagesOf, update_of_ne huv]

/-- A page that is mapped on demand is what it was before. -/
theorem pagesOf_demand (hv : v < tfPage) (hnone : m v = none) (hx : x ∉ held tfPage m) :
    pagesOf (Function.update data x (.fill 0))
      (Function.update m v (some ⟨x, ⟨true, false, true⟩⟩)) = pagesOf data m := by
  rw [pagesOf_update hv _ hx]
  have hfresh : pagesOf data m v = fresh := pagesOf_of_none hnone
  show Function.update (pagesOf data m) v fresh = _
  rw [← hfresh, update_eq_self]

/-- Writing to a page changes that page only. -/
theorem pagesOf_write (hv : v < tfPage) (hm : m v = some l) (hnd : (held tfPage m).Nodup)
    (c : Page) : pagesOf (Function.update data l.ppn c) m =
      Function.update (pagesOf data m) v (l.perm, c) := by
  funext u
  by_cases huv : u = v
  · rw [huv, update_self, pagesOf_of_some hv hm, update_self]
  · rw [update_of_ne huv]
    by_cases hu : u < tfPage
    · cases hmu : m u with
      | none => rw [pagesOf_of_none hmu, pagesOf_of_none hmu]
      | some l' =>
        have hne : l'.ppn ≠ l.ppn := fun he => huv (eq_of_held hnd hu hv hmu hm he)
        rw [pagesOf_of_some hu hmu, pagesOf_of_some hu hmu, update_of_ne hne]
    · rw [pagesOf_of_le (Nat.not_lt.mp hu), pagesOf_of_le (Nat.not_lt.mp hu)]

end Pages

/-! ## New pages -/

variable {W : Ram} {k : Kmem} {R F : Multiset ℕ} {t : Table} {v x tf sz : ℕ} {perm : Perm}
  {f : Frames} {E : Panic → Prop}

/-- A page that has just been taken is not used for anything. -/
theorem Books.notMem (h : Books W k ({x} + R)) : x ∉ R := by
  have hnd := (nodup_add.mp h.nodup).2.1
  exact disjoint_left.mp (nodup_add.mp hnd).2.2 (mem_singleton_self x)

theorem Books.nodup_held (h : Books W k (t.pages + F)) : (held tfPage t.map).Nodup := by
  have hnd := (nodup_add.mp h.nodup).2.1
  exact (nodup_add.mp (nodup_add.mp hnd).1).2.1

theorem Books.notMem_of_held (h : Books W k (t.pages + F)) (hx : x ∈ held tfPage t.map) :
    x ∉ F := by
  have hnd := (nodup_add.mp h.nodup).2.1
  exact disjoint_left.mp (nodup_add.mp hnd).2.2 (mem_add.mpr (.inr hx))

theorem notMem_held (hx : x ∉ t.pages + F) : x ∉ held tfPage t.map := fun hx' =>
  hx (mem_add.mpr (.inl (mem_add.mpr (.inr hx'))))

namespace Frames

theorem onFree_spec {α : Type} {c : VM α} {Q : α → Kmem → Prop} (h : Ends (c f.kmem) Q E) :
    Ends (onFree c f) (fun a f' => ∃ k, f' = { f with kmem := k } ∧ Q a k) E :=
  zoom_spec h

theorem kalloc_space (h : Books W f.kmem R) :
    Ends (kalloc f) (fun o f' => (∀ y ∈ R, f'.data y = f.data y) ∧
      (o = none → Books W f'.kmem R ∧ f'.short = true) ∧
      ∀ x, o = some x → Books W f'.kmem ({x} + R) ∧ f'.short = f.short ∧
        f'.data = Function.update f.data x (.fill 5)) E := by
  rw [kalloc]
  refine Ends.bind (onFree_spec (kalloc_spec h)) fun o f' hf' => ?_
  obtain ⟨k, rfl, hb⟩ := hf'
  cases o with
  | none =>
    refine ⟨fun _ _ => rfl, fun _ => ⟨hb.of_eq (zero_add R), Bool.or_true _⟩, ?_⟩
    rintro _ ⟨⟩
  | some x =>
    refine ⟨fun y hy => update_of_ne ?_ .., by rintro ⟨⟩, ?_⟩
    · rintro rfl
      exact Books.notMem hb hy
    · rintro _ ⟨⟩
      exact ⟨hb, Bool.or_false _, rfl⟩

theorem mappages_space {pa : ℕ} (hv : v < tfPage) (hnone : t.map v = none)
    (h : Books W f.kmem (t.pages + ({pa} + F))) :
    Ends (mappages t (v * pgsize) pgsize pa perm f) (fun r f' => f'.data = f.data ∧
      (r.1 = true → r.2.map = Function.update t.map v (some ⟨pa, perm⟩) ∧
        Books W f'.kmem (r.2.pages + F) ∧ f'.short = f.short) ∧
      (r.1 = false → r.2.map = t.map ∧ Books W f'.kmem ({pa} + (r.2.pages + F)) ∧
        f'.short = true)) E := by
  rw [mappages]
  refine Ends.bind (onFree_spec (mappages_user hv hnone h)) fun r f' hf' => ?_
  obtain ⟨k, rfl, htrue, hfalse⟩ := hf'
  refine ⟨rfl, fun hr => ⟨(htrue hr).1, (htrue hr).2, ?_⟩, fun hr =>
    ⟨(hfalse hr).1, (hfalse hr).2, ?_⟩⟩
  · rw [hr]
    exact Bool.or_false _
  · rw [hr]
    exact Bool.or_true _

/-- A page with new contents is mapped. -/
theorem newPage_space {c : (ℕ → Page) → Page} (hv : v < tfPage) (hnone : t.map v = none)
    (h : Books W f.kmem (t.pages + F)) :
    Ends (newPage t (v * pgsize) c perm f) (fun r f' => Books W f'.kmem (r.2.pages + F) ∧
      (∀ y ∈ F, f'.data y = f.data y) ∧ (r.1 = none → r.2.map = t.map ∧ f'.short = true) ∧
      ∀ x, r.1 = some x → x ∉ t.pages + F ∧ f'.short = f.short ∧
        r.2.map = Function.update t.map v (some ⟨x, perm⟩) ∧
        f'.data = Function.update f.data x (c (Function.update f.data x (.fill 5)))) E := by
  rw [newPage]
  refine Ends.bind (kalloc_space h) fun o f₁ hf₁ => ?_
  obtain ⟨hkeep, hfail, hok⟩ := hf₁
  cases o with
  | none =>
    refine ⟨(hfail rfl).1, fun y hy => hkeep y (mem_add.mpr (.inr hy)),
      fun _ => ⟨rfl, (hfail rfl).2⟩, ?_⟩
    rintro _ ⟨⟩
  | some x =>
    obtain ⟨hb, hshort, hdata⟩ := hok x rfl
    have hx := Books.notMem hb
    have hdata' : Function.update f₁.data x (c f₁.data) =
        Function.update f.data x (c (Function.update f.data x (.fill 5))) := by
      rw [hdata, update_idem]
    have hkeep' : ∀ y ∈ F, Function.update f₁.data x (c f₁.data) y = f.data y := by
      intro y hy
      rw [hdata', update_of_ne]
      rintro rfl
      exact hx (mem_add.mpr (.inr hy))
    dsimp only
    rw [setPage, modify_bind]
    have hb' : Books W f₁.kmem (t.pages + ({x} + F)) := hb.of_eq (by abel)
    refine Ends.bind (mappages_space hv hnone hb') fun r f₂ hf₂ => ?_
    obtain ⟨hsame, htrue, hfalse⟩ := hf₂
    cases hr₁ : r.1 with
    | true =>
      obtain ⟨hmap, hb₂, hshort₂⟩ := htrue hr₁
      refine ⟨hb₂, fun y hy => (congrFun hsame y).trans (hkeep' y hy), by rintro ⟨⟩, ?_⟩
      rintro _ ⟨⟩
      exact ⟨hx, hshort₂.trans hshort, hmap, hsame.trans hdata'⟩
    | false =>
      obtain ⟨hmap, hb₂, hshort₂⟩ := hfalse hr₁
      refine Ends.bind (onFree_spec (kfree_spec hb₂)) fun _ f₃ hf₃ => ?_
      obtain ⟨k₃, rfl, hb₃⟩ := hf₃
      refine ⟨hb₃, fun y hy => (congrFun hsame y).trans (hkeep' y hy), fun _ => ⟨hmap, hshort₂⟩, ?_⟩
      rintro _ ⟨⟩

/-! ## Growing and copying -/

/-- What code that takes pages has done: pages `F` that are elsewhere have not changed, and if no
allocation has failed, then `P`. -/
def Kept (F : Multiset ℕ) (f f' : Frames) (P : Prop) : Prop :=
  (∀ y ∈ F, f'.data y = f.data y) ∧ (f'.short = false → f.short = false ∧ P)

variable {f₁ f₂ : Frames} {P Q R' : Prop}

theorem Kept.refl (hP : P) : Kept F f f P := ⟨fun _ _ => rfl, fun hs => ⟨hs, hP⟩⟩

theorem Kept.trans (h : Kept F f f₁ P) (h' : Kept F f₁ f₂ Q) (hR : P → Q → R') :
    Kept F f f₂ R' := by
  refine ⟨fun y hy => (h'.1 y hy).trans (h.1 y hy), fun hs => ?_⟩
  obtain ⟨hs₁, hq⟩ := h'.2 hs
  obtain ⟨hs₀, hp⟩ := h.2 hs₁
  exact ⟨hs₀, hR hp hq⟩

/-- After a failed allocation nothing is promised, whatever is cleaned up. -/
theorem kept_of_short {α : Type} (c : VM α) {P : α → Frames → Prop}
    (hframe : ∀ y ∈ F, f₁.data y = f.data y) (hshort : f₁.short = true) :
    Ends (onFree c f₁) (fun a f' => Kept F f f' (P a f')) fun _ => True := by
  have hc : Ends (c f₁.kmem) (fun _ _ => True) fun _ => True := by
    cases c f₁.kmem with
    | ok r => trivial
    | error e => trivial
  refine (onFree_spec hc).imp fun _ f' hf' => ?_
  obtain ⟨k, rfl, -⟩ := hf'
  refine ⟨hframe, fun hs => ?_⟩
  cases hshort.symm.trans hs

variable {w oldsz newsz : ℕ} {old new : Table}

theorem uvmallocFrom_space (n : ℕ) (hnone : ∀ u, w ≤ u → u < w + n → t.map u = none)
    (hw : w + n ≤ tfPage) (h : Books W f.kmem (t.pages + F)) :
    Ends (uvmallocFrom oldsz newsz ⟨true, false, true⟩ n t (w * pgsize) f) (fun r f' =>
      Kept F f f' (r.1 = newsz ∧ pagesOf f'.data r.2.map = pagesOf f.data t.map))
      fun _ => True := by
  induction n generalizing t w f with
  | zero => exact .refl ⟨rfl, rfl⟩
  | succ n ih =>
    have hnone' := hnone w le_rfl (by omega)
    rw [uvmallocFrom]
    refine Ends.bind (newPage_space (by omega : w < tfPage) hnone' h) fun r f₁ hf₁ => ?_
    obtain ⟨hb, hframe, hfail, hok⟩ := hf₁
    cases hr : r.1 with
    | none => exact kept_of_short _ hframe (hfail hr).2
    | some x =>
      obtain ⟨hx, hshort, hmap, hdata⟩ := hok x hr
      have hnew : Kept F f f₁ (pagesOf f₁.data r.2.map = pagesOf f.data t.map) := by
        refine ⟨hframe, fun hs => ⟨hshort ▸ hs, ?_⟩⟩
        rw [hmap, hdata]
        exact pagesOf_demand (by omega) hnone' (notMem_held hx)
      rw [mul_pgsize_succ]
      refine (ih (fun u hu hu' => ?_) (by omega) hb).imp fun r' f' hf' =>
        hnew.trans hf' fun hP hQ => ⟨hQ.1, hQ.2.trans hP⟩
      rw [hmap, update_of_ne (by omega)]
      exact hnone u (by omega) (by omega)

/-- **Growing changes nothing but the size**: the pages were fresh before. -/
theorem uvmalloc_space (hl : Layout t.map tf W.tramp oldsz) (hold : oldsz ≤ newsz)
    (hnew : newsz ≤ Vm.trapframe) (h : Books W f.kmem (t.pages + F)) :
    Ends (uvmalloc t oldsz newsz true false f) (fun r f' => Kept F f f' (r.1 = newsz ∧
      pagesOf f'.data r.2.map = pagesOf f.data t.map)) fun _ => True := by
  rw [uvmalloc, if_neg (by omega), pgroundup_eq hl.size]
  have hend : pgs oldsz + (newsz - pgs oldsz * pgsize + (pgsize - 1)) / pgsize = pgs newsz := by
    have hmono := pgs_mono hold
    have hpgs : pgs newsz = (newsz + 4095) / 4096 := rfl
    show pgs oldsz + (newsz - pgs oldsz * 4096 + 4095) / 4096 = pgs newsz
    omega
  have htf := pgs_le hnew
  refine uvmallocFrom_space _ (fun u hu hu' => hl.free u hu (by omega)) (by omega) h

/-- A table is a copy of another one up to page `w`, and maps nothing from there on. -/
def Copied (old : Table) (w : ℕ) (f f' : Frames) (r : Bool × Table) : Prop :=
  r.1 = true ∧ (∀ u < w, pagesOf f'.data r.2.map u = pagesOf f.data old.map u) ∧
    ∀ u, w ≤ u → u < tfPage → r.2.map u = none

theorem uvmcopyFrom_space (n : ℕ) (hold : ∀ x ∈ held tfPage old.map, x ∈ F)
    (hdone : ∀ u < v, pagesOf f.data new.map u = pagesOf f.data old.map u)
    (hrest : ∀ u, v ≤ u → u < tfPage → new.map u = none) (hv : v + n ≤ tfPage)
    (h : Books W f.kmem (new.pages + F)) : Ends (uvmcopyFrom old n new (v * pgsize) f) (fun r f' =>
      Kept F f f' (Copied old (v + n) f f' r)) fun _ => True := by
  induction n generalizing new v f with
  | zero => exact .refl ⟨rfl, hdone, hrest⟩
  | succ n ih =>
    have he : v + 1 + n = v + (n + 1) := by omega
    have hlt : v < tfPage := by omega
    -- what is left to do when page `v` is done
    have hnext : ∀ {new' : Table} {f₁ : Frames}, Kept F f f₁ True →
        (∀ u < v + 1, pagesOf f₁.data new'.map u = pagesOf f₁.data old.map u) →
        (∀ u, v + 1 ≤ u → u < tfPage → new'.map u = none) →
        Books W f₁.kmem (new'.pages + F) →
        Ends (uvmcopyFrom old n new' (v * pgsize + pgsize) f₁) (fun r f' =>
          Kept F f f' (Copied old (v + (n + 1)) f f' r)) fun _ => True := by
      intro new' f₁ hkept hdone' hrest' hb
      rw [mul_pgsize_succ]
      refine (ih hdone' hrest' (by omega) hb).imp fun r f' hf' => hkept.trans hf' fun _ hQ => ?_
      rw [he] at hQ
      refine ⟨hQ.1, fun u hu => ?_, hQ.2.2⟩
      rw [hQ.2.1 u hu, pagesOf_congr fun x hx => hkept.1 x (hold x hx)]
    have hskip : old.map v = none → Ends (uvmcopyFrom old n new (v * pgsize + pgsize) f)
        (fun r f' => Kept F f f' (Copied old (v + (n + 1)) f f' r)) fun _ => True := by
      intro hnone
      refine hnext (.refl trivial) (fun u hu => ?_) (fun u hu => hrest u (by omega)) h
      by_cases huv : u = v
      · rw [huv, pagesOf_of_none hnone, pagesOf_of_none (hrest v le_rfl hlt)]
      · exact hdone u (by omega)
    obtain ⟨b, hw, hfalse, htrue⟩ := walk_page old (lt_maxPages hlt) f.kmem
    have hwalk : onFree (walk old (v * pgsize) false) f = .ok ((b, old), f) := by
      rw [onFree, zoom, hw]
    rw [uvmcopyFrom, bind_of_ok hwalk]
    cases b with
    | false => exact hskip (hfalse rfl)
    | true =>
      rw [if_pos rfl, (htrue rfl).2]
      cases hl : old.map v with
      | none => exact hskip hl
      | some l =>
        refine Ends.bind (newPage_space hlt (hrest v le_rfl hlt) h) fun r f₁ hf₁ => ?_
        obtain ⟨hb, hframe, hfail, hok⟩ := hf₁
        cases hr : r.1 with
        | none => exact kept_of_short _ hframe (hfail hr).2
        | some x =>
          obtain ⟨hx, hshort, hmap, hdata⟩ := hok x hr
          have hxold : l.ppn ≠ x := by
            rintro rfl
            exact hx (mem_add.mpr (.inr (hold _ (mem_held_iff.mpr ⟨v, l, hlt, hl, rfl⟩))))
          rw [update_of_ne hxold] at hdata
          have hsame : pagesOf f₁.data old.map = pagesOf f.data old.map :=
            pagesOf_congr fun y hy => hframe y (hold y hy)
          refine hnext ⟨hframe, fun hs => ⟨hshort ▸ hs, trivial⟩⟩ (fun u hu => ?_)
            (fun u hu hu' => ?_) hb
          · rw [hsame, hmap, hdata, pagesOf_update hlt l.perm (notMem_held hx)]
            by_cases huv : u = v
            · rw [huv, update_self, pagesOf_of_some hlt hl]
            · rw [update_of_ne huv]
              exact hdone u (by omega)
          · rw [hmap, update_of_ne (by omega)]
            exact hrest u (by omega) hu'

/-- **A copy looks like the original**, also where the original is not mapped. -/
theorem uvmcopy_space (hl : Layout old.map tf W.tramp sz) (hold : ∀ x ∈ held tfPage old.map, x ∈ F)
    (hnew : ∀ u < tfPage, new.map u = none) (h : Books W f.kmem (new.pages + F)) :
    Ends (uvmcopy old new sz f) (fun r f' => Kept F f f' (r.1 = true ∧
      pagesOf f'.data r.2.map = pagesOf f.data old.map)) fun _ => True := by
  have hcopy := uvmcopyFrom_space (v := 0) (pgs sz) hold (fun u hu => absurd hu (by omega))
    (fun u _ => hnew u) (by rw [Nat.zero_add]; exact pgs_le hl.size) h
  rw [Nat.zero_mul, Nat.zero_add] at hcopy
  refine hcopy.imp fun r f' hf' => ⟨hf'.1, fun hs => ?_⟩
  obtain ⟨hs', hr, hcopied, hfree⟩ := hf'.2 hs
  refine ⟨hs', hr, funext fun u => ?_⟩
  rcases Nat.lt_or_ge u (pgs sz) with hu | hu
  · exact hcopied u hu
  rcases Nat.lt_or_ge u tfPage with hu' | hu'
  · rw [pagesOf_of_none (hfree u hu hu'), pagesOf_of_none (hl.free u hu hu')]
  · rw [pagesOf_of_le hu', pagesOf_of_le hu']

/-! ## Access -/

/-- The address space that a user sees. -/
def space (f : Frames) (t : Table) (sz : ℕ) : Space := ⟨sz, pagesOf f.data t.map⟩

/-- What code on an address space has done: the layout is the same, pages `F` that are elsewhere
have not changed, and if no allocation has failed, then `P`. -/
structure Did (W : Ram) (tf sz : ℕ) (F : Multiset ℕ) (f f' : Frames) (t' : Table) (P : Prop) :
    Prop where
  layout : Layout t'.map tf W.tramp sz
  books : Books W f'.kmem (t'.pages + F)
  frame : ∀ y ∈ F, f'.data y = f.data y
  seen : f'.short = false → f.short = false ∧ P

variable {write : Bool} {va : ℕ}

theorem Did.refl (hl : Layout t.map tf W.tramp sz) (h : Books W f.kmem (t.pages + F)) (hP : P) :
    Did W tf sz F f f t P :=
  ⟨hl, h, fun _ _ => rfl, fun hs => ⟨hs, hP⟩⟩

theorem Did.trans {t₁ t₂ : Table} (h : Did W tf sz F f f₁ t₁ P) (h' : Did W tf sz F f₁ f₂ t₂ Q)
    (hR : P → Q → R') : Did W tf sz F f f₂ t₂ R' := by
  have hkept := Kept.trans ⟨h.frame, h.seen⟩ ⟨h'.frame, h'.seen⟩ hR
  exact ⟨h'.layout, h'.books, hkept.1, hkept.2⟩

theorem Did.imp {t' : Table} (h : Did W tf sz F f f₁ t' P) (hQ : P → Q) : Did W tf sz F f f₁ t' Q :=
  ⟨h.layout, h.books, h.frame, fun hs => (h.seen hs).imp id hQ⟩

theorem user_of_ge (hv : pgs sz ≤ v) : (f.space t sz).user v = none := if_neg fun h => by
  have : v < pgs sz := h.1
  omega

theorem translate_eq (hva : va < maxva) : translate write t va = (t.map (va / pgsize)).bind fun l =>
      if l.perm.u && (!write || l.perm.w) then some l.ppn else none := by
  have hlt : va / pgsize < tablePages := by
    have := tablePages_eq
    have : va < 2 ^ 38 := hva
    show va / 4096 < tablePages
    omega
  rw [translate, if_pos hva, Table.pte, Table.map, if_pos hlt]

variable (hl : Layout t.map tf W.tramp sz)
include hl

/-- A page that the user has access to is below the size. -/
theorem lt_pgs_of_user {l : Leaf} (hm : t.map v = some l) (hu : l.perm.u = true) : v < pgs sz := by
  by_contra hge
  cases (hl.top (Nat.not_lt.mp hge) hm).1.symm.trans hu

/-- What a mapped page is for the user. -/
theorem user_of_some {l : Leaf} (hv : v < pgs sz) (hm : t.map v = some l) :
    (f.space t sz).user v = if l.perm.u then some (l.perm, f.data l.ppn) else none := by
  have hpage : (f.space t sz).page v = (l.perm, f.data l.ppn) :=
    pagesOf_of_some (hv.trans_le (pgs_le hl.size)) hm
  have hperm : ((f.space t sz).page v).1 = l.perm := congrArg Prod.fst hpage
  by_cases hu : l.perm.u = true
  · rw [Space.user, if_pos ⟨hv, hperm ▸ hu⟩, hpage, if_pos hu]
  · rw [Space.user, if_neg fun h => hu (hperm ▸ h.2), if_neg hu]

/-- The hardware finds a page that the user has access to. -/
theorem translate_some (h : translate write t va = some x) :
    va / pgsize < pgs sz ∧ ∃ perm, perm.u = true ∧
      (write = true → perm.w = true) ∧ t.map (va / pgsize) = some ⟨x, perm⟩ := by
  have hva : va < maxva := by
    by_contra hva
    rw [translate, if_neg hva] at h
    cases h
  rw [translate_eq hva] at h
  cases hm : t.map (va / pgsize) with
  | none =>
    rw [hm] at h
    cases h
  | some l =>
    rw [hm, Option.bind_some] at h
    split_ifs at h with hp
    cases h
    obtain ⟨hu, hw⟩ := Bool.and_eq_true_iff.mp hp
    refine ⟨lt_pgs_of_user hl hm hu, l.perm, hu, ?_, rfl⟩
    rintro rfl
    exact hw

variable (h : Books W f.kmem (t.pages + F)) {dst : List UInt8}
include h

/-- `vmfault` changes nothing that the user sees. -/
theorem vmfault_space : Ends (vmfault t sz va f) (fun r f' => Did W tf sz F f f' r.2
      (f'.space r.2 sz = f.space t sz ∧ (r.1 = none → va < sz → t.map (va / pgsize) ≠ none)) ∧
      ∀ x, r.1 = some x → va < sz ∧ r.2.map (va / pgsize) = some ⟨x, ⟨true, false, true⟩⟩) E := by
  rw [vmfault]
  by_cases hva : sz ≤ va
  · rw [if_pos hva]
    refine ⟨.refl hl h ⟨rfl, fun _ hlt => absurd hlt (by omega)⟩, ?_⟩
    rintro _ ⟨⟩
  have hpage := div_lt_pgs (Nat.not_le.mp hva)
  have htf : va / pgsize < tfPage := hpage.trans_le (pgs_le hl.size)
  have hmapped : onFree (ismapped t (pgrounddown va)) f =
      .ok ((t.map (va / pgsize)).isSome, f) := by
    rw [onFree, zoom, pgrounddown, ismapped_eq t (lt_maxPages htf)]
  rw [if_neg hva, bind_of_ok hmapped]
  cases hm : t.map (va / pgsize) with
  | some l =>
    refine ⟨.refl hl h ⟨rfl, fun _ _ => ?_⟩, ?_⟩
    · rintro ⟨⟩
    · rintro _ ⟨⟩
  | none =>
    refine (newPage_space htf hm h).imp fun r f' hf' => ?_
    obtain ⟨hb, hframe, hfail, hok⟩ := hf'
    cases hr : r.1 with
    | none =>
      obtain ⟨hmap, hshort⟩ := hfail hr
      refine ⟨⟨hmap ▸ hl, hb, hframe, fun hs => ?_⟩, ?_⟩
      · cases hshort.symm.trans hs
      · rintro _ ⟨⟩
    | some x =>
      obtain ⟨hx, hshort, hmap, hdata⟩ := hok x hr
      have hl' : Layout r.2.map tf W.tramp sz := by
        refine hl.below hl.size (fun u hu hu' => ?_) fun u hu => ?_
        · rw [hmap, update_of_ne (by omega), hl.free u hu hu']
        · rw [hmap, update_of_ne (by omega)]
      refine ⟨⟨hl', hb, hframe, fun hs => ⟨hshort ▸ hs, ?_, by rintro ⟨⟩⟩⟩, ?_⟩
      · rw [space, space, hmap, hdata]
        exact congrArg (Space.mk sz) (pagesOf_demand htf hm (notMem_held hx))
      · rintro _ ⟨⟩
        refine ⟨Nat.not_le.mp hva, ?_⟩
        rw [hmap, update_self]

/-- `walkaddr` and `vmfault` find the page that the user has access to. -/
theorem userPage_space : Ends (userPage t sz (v * pgsize) f) (fun r f' => Did W tf sz F f f' r.2
      (f'.space r.2 sz = f.space t sz ∧ (r.1 = none → (f.space t sz).user v = none)) ∧
      ∀ x, r.1 = some x → v < pgs sz ∧ ∃ perm, perm.u = true ∧ r.2.map v = some ⟨x, perm⟩) E := by
  have hdiv : v * pgsize / pgsize = v := mul_pgsize_div v
  have haddr : onFree (walkaddr t (v * pgsize)) f = .ok (if v * pgsize < maxva then
      (t.map v).bind fun l => if l.perm.u then some l.ppn else none else none, f) := by
    rw [onFree, zoom, walkaddr_eq, hdiv]
  rw [userPage, bind_of_ok haddr]
  cases ho : (if v * pgsize < maxva then
      (t.map v).bind fun l => if l.perm.u then some l.ppn else none else none) with
  | some pa =>
    refine ⟨.refl hl h ⟨rfl, by rintro ⟨⟩⟩, ?_⟩
    rintro _ ⟨⟩
    split_ifs at ho
    cases hm : t.map v with
    | none =>
      rw [hm] at ho
      cases ho
    | some l =>
      rw [hm, Option.bind_some] at ho
      split_ifs at ho with hu
      cases ho
      exact ⟨lt_pgs_of_user hl hm hu, l.perm, hu, rfl⟩
  | none =>
    refine (vmfault_space hl h).imp fun r f' hf' => ?_
    rw [hdiv] at hf'
    refine ⟨hf'.1.imp fun hP => ⟨hP.1, fun hr => ?_⟩, fun x hx => ?_⟩
    · -- the page is above the size, or it is mapped and not for the user
      rcases Nat.lt_or_ge v (pgs sz) with hlt | hge
      · have hlt' := lt_pgs_iff.mp hlt
        rw [if_pos (lt_maxva hl.size hlt')] at ho
        cases hm : t.map v with
        | none => exact absurd hm (hP.2 hr hlt')
        | some l =>
          rw [hm, Option.bind_some] at ho
          rw [user_of_some hl hlt hm]
          by_cases hu : l.perm.u = true
          · rw [if_pos hu] at ho
            cases ho
          · rw [if_neg hu]
      · exact user_of_ge hge
    · obtain ⟨hlt, hm⟩ := hf'.2 x hx
      exact ⟨lt_pgs_iff.mpr hlt, _, rfl, hm⟩

/-- `copyin` reads what the user sees. -/
theorem copyinFrom_space (turns : ℕ) {srcva len : ℕ} :
    Ends (copyinFrom sz turns t dst srcva len f) (fun r f' => Did W tf sz F f f' r.2
      (f'.space r.2 sz = f.space t sz ∧
        (f.space t sz).copyinFrom turns dst srcva len = r.1)) E := by
  induction turns generalizing t dst srcva len f with
  | zero => exact .refl hl h ⟨rfl, rfl⟩
  | succ turns ih =>
    rw [copyinFrom, Space.copyinFrom]
    by_cases hlen : len = 0
    · rw [if_pos hlen, if_pos hlen]
      exact .refl hl h ⟨rfl, rfl⟩
    rw [if_neg hlen, if_neg hlen]
    refine Ends.bind (userPage_space hl h) fun r f₁ hf₁ => ?_
    obtain ⟨hdid, hok⟩ := hf₁
    cases hr : r.1 with
    | none =>
      refine hdid.imp fun hP => ⟨hP.1, ?_⟩
      rw [hP.2 hr]
    | some x =>
      obtain ⟨hv, perm, hu, hm⟩ := hok x hr
      refine (ih hdid.layout hdid.books).imp fun r' f' hf' => hdid.trans hf' fun hP hQ => ?_
      have huser := user_of_some (f := f₁) hdid.layout hv hm
      rw [hP.1, if_pos hu] at huser
      rw [hP.1] at hQ
      rw [huser]
      exact hQ

/-- `copyinstr` reads what the user sees. -/
theorem copyinstrFrom_space (turns : ℕ) {srcva max : ℕ} :
    Ends (copyinstrFrom sz turns t dst srcva max f) (fun r f' => Did W tf sz F f f' r.2
      (f'.space r.2 sz = f.space t sz ∧
        (f.space t sz).copyinstrFrom turns dst srcva max = r.1)) E := by
  induction turns generalizing t dst srcva max f with
  | zero => exact .refl hl h ⟨rfl, rfl⟩
  | succ turns ih =>
    rw [copyinstrFrom, Space.copyinstrFrom]
    by_cases hmax : max = 0
    · rw [if_pos hmax, if_pos hmax]
      exact .refl hl h ⟨rfl, rfl⟩
    rw [if_neg hmax, if_neg hmax]
    refine Ends.bind (userPage_space hl h) fun r f₁ hf₁ => ?_
    obtain ⟨hdid, hok⟩ := hf₁
    cases hr : r.1 with
    | none =>
      refine hdid.imp fun hP => ⟨hP.1, ?_⟩
      rw [hP.2 hr]
    | some x =>
      obtain ⟨hv, perm, hu, hm⟩ := hok x hr
      have huser := user_of_some (f := f₁) hdid.layout hv hm
      rw [if_pos hu] at huser
      dsimp only
      rw [get_bind]
      split_ifs with hnul
      · refine hdid.imp fun hP => ⟨hP.1, ?_⟩
        rw [hP.1] at huser
        rw [huser]
        exact if_pos hnul
      · refine (ih hdid.layout hdid.books).imp fun r' f' hf' => hdid.trans hf' fun hP hQ => ?_
        rw [hP.1] at huser hQ
        rw [huser]
        exact ⟨hQ.1, (if_neg hnul).trans hQ.2⟩

/-- Writing to a page that the user has access to. -/
theorem setPage_space (off : ℕ) (src : List UInt8) (hv : v < pgs sz)
    (hm : t.map v = some ⟨x, perm⟩) :
    Did W tf sz F f { f with data := Function.update f.data x ((f.data x).write off src) } t
      (space { f with data := Function.update f.data x ((f.data x).write off src) } t sz =
        (f.space t sz).write v off src) := by
  have htf : v < tfPage := hv.trans_le (pgs_le hl.size)
  have hx : x ∈ held tfPage t.map := mem_held_iff.mpr ⟨v, _, htf, hm, rfl⟩
  refine ⟨hl, h, fun y hy => update_of_ne ?_ .., fun hs => ⟨hs, ?_⟩⟩
  · rintro rfl
    exact h.notMem_of_held hx hy
  · rw [space, space, Space.write]
    dsimp only
    rw [pagesOf_of_some htf hm]
    exact congrArg (Space.mk sz) (pagesOf_write htf hm h.nodup_held _)

/-- `copyout` writes what the user then sees. -/
theorem copyoutFrom_space (turns : ℕ) {dstva : ℕ} {src : List UInt8} :
    Ends (copyoutFrom sz turns t dstva src f) (fun r f' => Did W tf sz F f f' r.2
      ((f.space t sz).copyoutFrom turns dstva src = (r.1, f'.space r.2 sz))) E := by
  induction turns generalizing t dstva src f with
  | zero => exact .refl hl h rfl
  | succ turns ih =>
    rw [copyoutFrom, Space.copyoutFrom]
    by_cases hlen : src.length = 0
    · rw [if_pos hlen, if_pos hlen]
      exact .refl hl h rfl
    rw [if_neg hlen, if_neg hlen]
    by_cases hva : maxva ≤ pgrounddown dstva
    · have hge : pgs sz ≤ dstva / pgsize := by
        by_contra hlt
        have hlt' : pgrounddown dstva < sz := lt_pgs_iff.mp (Nat.not_le.mp hlt)
        exact hva.not_gt (lt_maxva hl.size hlt')
      rw [if_pos hva, user_of_ge hge]
      exact .refl hl h rfl
    rw [if_neg hva]
    refine Ends.bind (userPage_space hl h) fun r f₁ hf₁ => ?_
    obtain ⟨hdid, hok⟩ := hf₁
    cases hr : r.1 with
    | none =>
      refine hdid.imp fun hP => ?_
      rw [hP.2 hr, hP.1]
      rfl
    | some x =>
      obtain ⟨hv, perm, hu, hm⟩ := hok x hr
      have huser := user_of_some (f := f₁) hdid.layout hv hm
      rw [if_pos hu] at huser
      obtain ⟨b, hw, hfalse, htrue⟩ := walk_lookup r.2 (Nat.not_le.mp hva) f₁.kmem
      have hdiv : pgrounddown dstva / pgsize = dstva / pgsize := mul_pgsize_div _
      rw [hdiv] at hfalse htrue
      have hwalk : onFree (walk r.2 (pgrounddown dstva) false) f₁ = .ok ((b, r.2), f₁) := by
        rw [onFree, zoom, hw]
      dsimp only
      rw [bind_of_ok hwalk]
      cases b with
      | false => cases (hfalse rfl).symm.trans hm
      | true =>
        rw [if_pos rfl, (htrue rfl).2, hm, Option.map_some]
        by_cases hpw : perm.w = true
        · rw [if_pos (congrArg some hpw), setPage, modify_bind]
          have hset := setPage_space hdid.layout hdid.books (dstva - pgrounddown dstva)
            (src.take (pgsize - (dstva - pgrounddown dstva))) hv hm
          refine (ih hset.layout hset.books).imp fun r' f' hf' =>
            hdid.trans (hset.trans hf' fun hP hQ => hP ▸ hQ) fun hP hQ => ?_
          rw [hP.1] at hQ huser
          rw [huser, Option.any_some, if_pos hpw]
          exact hQ
        · rw [if_neg fun hs => hpw (Option.some.inj hs)]
          refine hdid.imp fun hP => ?_
          rw [hP.1] at huser ⊢
          rw [huser, Option.any_some, if_neg hpw]

/-! ## Loads and stores -/

/-- A load or a store, with the page faults on the way. -/
theorem touch_space : Ends (touch write t sz va f) (fun r f' => Did W tf sz F f f' r.2
      (f'.space r.2 sz = f.space t sz ∧ (r.1 = none → va < sz →
        (((f.space t sz).user (va / pgsize)).any fun x => !write || x.1.w) = false)) ∧
      ∀ x, r.1 = some x → va / pgsize < pgs sz ∧ ∃ perm, perm.u = true ∧
        (write = true → perm.w = true) ∧ r.2.map (va / pgsize) = some ⟨x, perm⟩) E := by
  -- a page that is mapped and not found does not have the permissions
  have hdenied : ∀ {t' : Table} {f' : Frames} {l : Leaf}, Layout t'.map tf W.tramp sz → va < sz →
      t'.map (va / pgsize) = some l → translate write t' va = none →
      (((f'.space t' sz).user (va / pgsize)).any fun x => !write || x.1.w) = false := by
    intro t' f' l hl' hva hm htr
    rw [translate_eq (lt_maxva hl'.size hva), hm, Option.bind_some] at htr
    rw [user_of_some hl' (div_lt_pgs hva) hm]
    by_cases hu : l.perm.u = true
    · rw [hu, Bool.true_and] at htr
      rw [if_pos hu, Option.any_some]
      by_contra hw
      rw [if_pos (Bool.eq_true_of_not_eq_false hw)] at htr
      cases htr
    · rw [if_neg hu, Option.any_none]
  rw [touch]
  cases htr : translate write t va with
  | some pa =>
    refine ⟨.refl hl h ⟨rfl, by rintro ⟨⟩⟩, ?_⟩
    rintro _ ⟨⟩
    exact translate_some hl htr
  | none =>
    refine Ends.bind (vmfault_space hl h) fun r f₁ hf₁ => ?_
    obtain ⟨hdid, hok⟩ := hf₁
    cases hr : r.1 with
    | none =>
      refine ⟨hdid.imp fun hP => ⟨hP.1, fun _ hva => ?_⟩, by rintro _ ⟨⟩⟩
      obtain ⟨l, hm⟩ := Option.ne_none_iff_exists'.mp (hP.2 hr hva)
      exact hdenied hl hva hm htr
    | some pa =>
      obtain ⟨hva, hm⟩ := hok pa hr
      refine ⟨hdid.imp fun hP => ⟨hP.1, fun hnone _ => ?_⟩, fun x hx =>
        translate_some hdid.layout hx⟩
      rw [← hP.1]
      exact hdenied hdid.layout hva hm hnone

/-- **A load** below the size returns the byte that is there. -/
theorem load_space : Ends (load t sz va f) (fun r f' => Did W tf sz F f f' r.2
      (va < sz → (f.space t sz).load va = (r.1, f'.space r.2 sz))) E := by
  rw [load]
  refine Ends.bind (touch_space hl h) fun r f₁ hf₁ => ?_
  obtain ⟨hdid, hok⟩ := hf₁
  rw [get_bind]
  refine hdid.imp fun hP hva => ?_
  rw [hP.1, Space.load]
  cases hr : r.1 with
  | none =>
    have hnone := hP.2 hr hva
    cases hu : (f.space t sz).user (va / pgsize) with
    | none => rfl
    | some y =>
      rw [hu] at hnone
      cases hnone
  | some x =>
    obtain ⟨hv, perm, hu, -, hm⟩ := hok x hr
    have huser := user_of_some (f := f₁) hdid.layout hv hm
    rw [hP.1, if_pos hu] at huser
    rw [huser]
    rfl

/-- **A store** below the size changes the byte that is there. -/
theorem store_space {b : UInt8} : Ends (store t sz va b f) (fun r f' => Did W tf sz F f f' r.2
      (va < sz → (f.space t sz).store va b = (r.1, f'.space r.2 sz))) E := by
  rw [store]
  refine Ends.bind (touch_space hl h) fun r f₁ hf₁ => ?_
  obtain ⟨hdid, hok⟩ := hf₁
  cases hr : r.1 with
  | none =>
    refine hdid.imp fun hP hva => ?_
    have hnone : (((f.space t sz).user (va / pgsize)).any fun x => x.1.w) = false := hP.2 hr hva
    rw [hP.1, Space.store, if_neg (hnone ▸ Bool.false_ne_true)]
  | some x =>
    obtain ⟨hv, perm, hu, hpw, hm⟩ := hok x hr
    have huser := user_of_some (f := f₁) hdid.layout hv hm
    rw [if_pos hu] at huser
    refine hdid.trans (setPage_space hdid.layout hdid.books (va % pgsize) [b] hv hm)
      fun hP hQ _ => ?_
    rw [hP.1] at huser hQ
    rw [Space.store, huser, Option.any_some, if_pos (hpw rfl)]
    exact congrArg (Prod.mk true) hQ.symm

end Frames

end Vm

end TrinityXv6
