import TrinityXv6.Vm.Process
import TrinityXv6.Vm.SpaceSpec

/-!
# The address space of a process

The layout that the address space of every process has: pages of the process below its size, rounded
up, then nothing, and the trapframe and the trampoline at the top. `proc_pagetable` makes such an
address space, faults and copies keep it, `proc_freepagetable` frees it, and `kexec` makes a new one
from whatever is in a file, or nothing.

`kexec` relies on the pages below the size being mapped without holes: this is why `loadseg` finds
them, and why a size taken from the file cannot reach the trapframe before memory runs out.
-/

namespace TrinityXv6

namespace Vm

open Command
open Function (update_self update_of_ne update_idem)

variable {W : Ram} {k k' : Kmem} {F : Multiset ℕ} {t : Table} {x v w sz oldsz newsz tf tr : ℕ}
  {m m' : ℕ → Option Leaf} {perm : Perm} {E : Panic → Prop}

/-- The layout of an address space of this size, with this trapframe and this trampoline. -/
structure Layout (m : ℕ → Option Leaf) (tf tr sz : ℕ) : Prop where
  size : sz ≤ Vm.trapframe
  free : ∀ u, pgs sz ≤ u → u < tfPage → m u = none
  frame : m tfPage = some ⟨tf, ⟨true, false, false⟩⟩
  tramp : m (tfPage + 1) = some ⟨tr, ⟨false, true, false⟩⟩
  above : ∀ u, maxPages ≤ u → m u = none

/-- From the size on, only the trapframe and the trampoline are mapped, not for the user. -/
theorem Layout.top {l : Leaf} (h : Layout m tf tr sz) (hv : pgs sz ≤ v) (hm : m v = some l) :
    l.perm.u = false ∧ (v = tfPage ∨ v = tfPage + 1) := by
  have htf := tfPage_eq
  have hmax := maxPages_eq
  rcases Nat.lt_trichotomy v tfPage with hlt | rfl | hgt
  · cases (h.free v hv hlt).symm.trans hm
  · cases h.frame.symm.trans hm
    exact ⟨rfl, .inl rfl⟩
  · by_cases htr : v = tfPage + 1
    · cases (htr ▸ h.tramp).symm.trans hm
      exact ⟨rfl, .inr htr⟩
    · cases (h.above v (by omega)).symm.trans hm

/-- Changes below the new size keep the layout. -/
theorem Layout.below (h : Layout m tf tr oldsz) (hsz : sz ≤ Vm.trapframe)
    (hfree : ∀ u, pgs sz ≤ u → u < tfPage → m' u = none) (hsame : ∀ u, tfPage ≤ u → m' u = m u) :
    Layout m' tf tr sz := by
  refine ⟨hsz, hfree, ?_, ?_, fun u hu => ?_⟩
  · rw [hsame tfPage le_rfl, h.frame]
  · rw [hsame _ (Nat.le_succ _), h.tramp]
  · have := maxPages_eq
    have := tfPage_eq
    rw [hsame u (by omega), h.above u hu]

theorem Layout.extend (h : Layout m tf tr sz) (he : Extends (pgs sz) m m') :
    Layout m' tf tr sz := by
  have hpgs := pgs_le h.size
  have hsame : ∀ u, pgs sz ≤ u → m' u = m u := by
    intro u hu
    rcases he u with hsame | ⟨_, hlt, _⟩
    · exact hsame
    · omega
  refine h.below h.size (fun u hu hu' => ?_) fun u hu => hsame u (by omega)
  rw [hsame u hu, h.free u hu hu']

theorem Layout.grow (h : Layout m tf tr oldsz) (hold : oldsz ≤ newsz)
    (hsz : newsz ≤ Vm.trapframe) (hg : Grown perm (pgs oldsz) (pgs newsz) m m') :
    Layout m' tf tr newsz := by
  have hmono := pgs_mono hold
  have hpgs := pgs_le hsz
  refine h.below hsz (fun u hu hu' => ?_) fun u hu => hg.same u (by omega)
  rw [hg.same u (.inr hu), h.free u (by omega) hu']

theorem Layout.shrink (h : Layout m tf tr oldsz) (hnew : newsz ≤ oldsz)
    (hm : m' = without m (pgs newsz) (pgs oldsz)) : Layout m' tf tr newsz := by
  have hpgs := pgs_le h.size
  refine h.below (hnew.trans h.size) (fun u hu hu' => ?_) fun u hu => ?_
  · rw [hm, without]
    split_ifs with hin
    · rfl
    · exact h.free u (by omega) hu'
  · rw [hm, without, if_neg (by omega)]

/-- A lazily grown address space. -/
theorem Layout.mono (h : Layout m tf tr oldsz) (hold : oldsz ≤ newsz)
    (hsz : newsz ≤ Vm.trapframe) : Layout m tf tr newsz :=
  h.below hsz (fun u hu hu' => h.free u ((pgs_mono hold).trans hu) hu') fun _ _ => rfl

/-- The size rounded up. -/
theorem Layout.round (h : Layout m tf tr sz) : Layout m tf tr (pgs sz * pgsize) :=
  h.mono (le_pgs_mul sz) (mul_pgsize_le (pgs_le h.size))

/-! ## Making and freeing an address space -/

theorem procFreepagetable_spec (hl : Layout t.map tf tr sz) (h : Books W k (t.pages + F)) :
    Ends (procFreepagetable t sz k) (fun _ k' => Books W k' F) E := by
  have hmax := maxPages_eq
  have htf := tfPage_eq
  rw [procFreepagetable, trampoline_eq, trapframe_eq]
  refine Ends.bind (uvmunmap_kernel (by omega) (by omega) h) fun t₁ k₁ h₁ => ?_
  refine Ends.bind (uvmunmap_kernel le_rfl (by omega) h₁.1) fun t₂ k₂ h₂ => ?_
  refine uvmfree_spec hl.size (fun u hu => ?_) h₂.1
  rw [h₂.2, h₁.2]
  by_cases hframe : u = tfPage
  · rw [hframe, update_self]
  by_cases htramp : u = tfPage + 1
  · rw [htramp, update_of_ne (by omega), update_self]
  rw [update_of_ne hframe, update_of_ne htramp]
  rcases Nat.lt_or_ge u tfPage with hlt | hge
  · exact hl.free u hu hlt
  · exact hl.above u (by omega)

/-- A new address space, and what has become of it if it could not be made. -/
def Made (W : Ram) (F : Multiset ℕ) (tf : ℕ) (o : Option (Table × ℕ)) (k : Kmem) : Prop :=
  match o with
  | none => Books W k F
  | some (t, sz) => Books W k (t.pages + F) ∧ Layout t.map tf W.tramp sz

theorem procPagetableTrapframe_spec (hm : t.map = Function.update (fun _ => none) (tfPage + 1)
      (some ⟨W.tramp, ⟨false, true, false⟩⟩)) (h : Books W k (t.pages + F)) :
    Ends (procPagetableTrapframe t tf k) (fun o k' => Made W F tf (o.map (·, 0)) k') E := by
  have hmax := maxPages_eq
  have htf := tfPage_eq
  have hnone : t.map tfPage = none := by
    rw [hm, update_of_ne (by omega)]
  rw [procPagetableTrapframe, trapframe_eq, trampoline_eq]
  refine Ends.bind (mappages_kernel le_rfl (by omega) hnone h) fun r k₁ h₁ => ?_
  cases hok : r.1 with
  | true =>
    rw [hok, if_pos rfl, hm] at h₁
    refine ⟨h₁.1, Nat.zero_le _, fun u _ hu => ?_, ?_, ?_, fun u hu => ?_⟩
    · rw [h₁.2, update_of_ne (by omega), update_of_ne (by omega)]
    · rw [h₁.2, update_self]
    · rw [h₁.2, update_of_ne (by omega), update_self]
    · rw [h₁.2, update_of_ne (by omega), update_of_ne (by omega)]
  | false =>
    rw [hok, if_neg Bool.false_ne_true] at h₁
    rw [if_neg Bool.false_ne_true]
    refine Ends.bind (uvmunmap_kernel (by omega) (by omega) h₁.1) fun t₂ k₂ h₂ => ?_
    refine Ends.bind (uvmfree_spec (Nat.zero_le _) (fun u _ => ?_) h₂.1) fun _ k₃ h₃ => h₃
    rw [h₂.2, h₁.2, hm, update_idem]
    by_cases hu : u = tfPage + 1
    · rw [hu, update_self]
    · rw [update_of_ne hu]

theorem map_empty (x : ℕ) : Table.map (Radix.empty 512 Leaf 2 x) = fun _ => none := by
  funext u
  rw [Table.map, Radix.get_empty, ite_self]

theorem pages_empty (x : ℕ) : Table.pages (Radix.empty 512 Leaf 2 x) = {x} := by
  rw [Table.pages, Radix.nodes_empty, map_empty, held_none, add_zero]

/-- `uvmcreate` makes an empty table. -/
theorem uvmcreate_spec (h : Books W k F) : Ends (uvmcreate k)
    (fun o k' => Books W k' (o.elim 0 Table.pages + F) ∧ ∀ t ∈ o, t.map = fun _ => none) E := by
  rw [uvmcreate]
  refine Ends.bind (kalloc_spec h) fun o k' hk' => ?_
  refine ⟨hk'.of_eq ?_, fun t ht => ?_⟩
  · cases o with
    | none => rfl
    | some x => rw [Option.map_some, Option.elim_some, Option.elim_some, pages_empty]
  · obtain ⟨x, -, hx⟩ := Option.map_eq_some_iff.mp ht
    rw [← hx, map_empty]

/-- `proc_pagetable` -/
theorem procPagetable_spec (tf : ℕ) (h : Books W k F) :
    Ends (procPagetable tf k) (fun o k' => Made W F tf (o.map (·, 0)) k') E := by
  have hmax := maxPages_eq
  have htf := tfPage_eq
  rw [procPagetable, trampoline_eq]
  refine Ends.bind (uvmcreate_spec h) fun o k₁ h₁ => ?_
  obtain ⟨hb, hm⟩ := h₁
  cases o with
  | none => exact hb.of_eq (by simp)
  | some t =>
    replace hm := hm t rfl
    have hnone : t.map (tfPage + 1) = none := by rw [hm]
    show Ends ((mappages t _ pgsize k₁.tramp _ >>= _) k₁) _ _
    refine Ends.bind (mappages_kernel (by omega) (by omega) hnone hb) fun r k₂ h₂ => ?_
    cases hok : r.1 with
    | true =>
      rw [hok, if_pos rfl, hm, hb.tramp] at h₂
      exact procPagetableTrapframe_spec h₂.2 h₂.1
    | false =>
      rw [hok, if_neg Bool.false_ne_true, hm] at h₂
      rw [if_neg Bool.false_ne_true]
      refine Ends.bind (uvmfree_spec (Nat.zero_le _) (fun u _ => ?_) h₂.1) fun _ k₃ h₃ => h₃
      rw [h₂.2]

/-! ## Exec -/

/-- All pages below the size are mapped for the user. -/
def Full (m : ℕ → Option Leaf) (sz : ℕ) : Prop := ∀ u < pgs sz, ∃ l, m u = some l ∧ l.perm.u = true

theorem Full.ne_none (h : Full m sz) : ∀ u < pgs sz, m u ≠ none := by
  intro u hu hnone
  obtain ⟨l, hl, -⟩ := h u hu
  cases hnone.symm.trans hl

theorem Full.grow {a b : Bool} (h : Full m oldsz)
    (hg : Grown ⟨a, b, true⟩ (pgs oldsz) (pgs newsz) m m') : Full m' newsz := by
  intro u hu
  rcases Nat.lt_or_ge u (pgs oldsz) with hlt | hge
  · rw [hg.same u (.inl hlt)]
    exact h u hlt
  · obtain ⟨x, hx⟩ := hg.new u hge hu
    exact ⟨_, hx, rfl⟩

theorem Full.walkaddr (h : Full t.map sz) (hsz : sz ≤ Vm.trapframe) {va : ℕ} (hva : va < sz)
    (k : Kmem) : ∃ pa, walkaddr t va k = .ok (some pa, k) := by
  obtain ⟨l, hl, hu⟩ := h _ (div_lt_pgs hva)
  refine ⟨l.ppn, ?_⟩
  rw [walkaddr_eq, if_pos (lt_maxva hsz hva), hl, Option.bind_some, if_pos hu]

/-- `loadseg` finds the pages of the segment. -/
theorem loadsegFrom_spec (pages : ℕ) {va len i : ℕ} (hfull : Full t.map sz)
    (hsz : sz ≤ Vm.trapframe) (hva : va + len ≤ sz) :
    Ends (loadsegFrom t va len pages i k) (fun _ k' => k' = k) E := by
  induction pages generalizing i with
  | zero =>
    rw [loadsegFrom]
    by_cases hi : i < len
    · obtain ⟨pa, hpa⟩ := hfull.walkaddr hsz (by omega : va + i < sz) k
      rw [if_pos hi, bind_of_ok hpa]
      rfl
    · rw [if_neg hi]
      rfl
  | succ pages ih =>
    rw [loadsegFrom]
    by_cases hi : i < len
    · obtain ⟨pa, hpa⟩ := hfull.walkaddr hsz (by omega : va + i < sz) k
      rw [if_pos hi, bind_of_ok hpa]
      exact ih
    · rw [if_neg hi]
      rfl

/-- The address space that `kexec` is making. -/
structure Loaded (m : ℕ → Option Leaf) (tf tr sz : ℕ) : Prop extends Layout m tf tr sz where
  full : Full m sz

theorem kexecSegment_spec {ph : Segment} (hl : Loaded t.map tf tr sz)
    (h : Books W k (t.pages + F)) :
    Ends (kexecSegment t sz ph k) (fun r k' => Books W k' (r.2.1.pages + F) ∧
      Loaded r.2.1.map tf tr r.2.2) E := by
  rw [kexecSegment]
  by_cases hload : (!ph.load) = true
  · rw [if_pos hload]
    exact ⟨h, hl⟩
  by_cases hmem : ph.memsz < ph.filesz
  · rw [if_neg hload, if_pos hmem]
    exact ⟨h, hl⟩
  by_cases hover : ph.vaddr + ph.memsz < ph.vaddr
  · rw [if_neg hload, if_neg hmem, if_pos hover]
    exact ⟨h, hl⟩
  by_cases halign : ph.vaddr.toNat % pgsize ≠ 0
  · rw [if_neg hload, if_neg hmem, if_neg hover, if_pos halign]
    exact ⟨h, hl⟩
  rw [if_neg hload, if_neg hmem, if_neg hover, if_neg halign]
  refine Ends.bind (uvmalloc_spec hl.size hl.free (.inr hl.full.ne_none) h) fun r k₁ h₁ => ?_
  obtain ⟨hb, hzero, hgrown⟩ := h₁
  by_cases hr : r.1 = 0
  · rw [if_pos hr]
    refine ⟨hb, ?_⟩
    rw [hzero hr]
    exact hl
  · obtain ⟨hmax, hsz, hg⟩ := hgrown hr
    have hl' : Loaded (Table.map r.2) tf tr r.1 :=
      ⟨hl.toLayout.grow (by omega) hsz hg, hl.full.grow hg⟩
    -- the sum of address and size has not wrapped, so the segment lies below the new size
    have hseg : ph.vaddr.toNat + ph.filesz.toNat % 2 ^ 32 ≤ r.1 := by
      rw [UInt64.lt_iff_toNat_lt, UInt64.toNat_add] at hover
      rw [UInt64.lt_iff_toNat_lt] at hmem
      rw [UInt64.toNat_add] at hmax
      have := ph.vaddr.toNat_lt
      have := ph.memsz.toNat_lt
      have := Nat.mod_le ph.filesz.toNat (2 ^ 32)
      omega
    rw [if_neg hr]
    refine Ends.bind (loadsegFrom_spec ph.pages hl'.full hsz hseg) fun ok k₂ h₂ => ?_
    rw [h₂]
    exact ⟨hb, hl'⟩

theorem kexecLoad_spec (phs : List (Option Segment)) (hl : Loaded t.map tf tr sz)
    (h : Books W k (t.pages + F)) :
    Ends (kexecLoad phs t sz k) (fun r k' => Books W k' (r.2.1.pages + F) ∧
      Loaded r.2.1.map tf tr r.2.2) E := by
  induction phs generalizing t sz k with
  | nil => exact ⟨h, hl⟩
  | cons ph phs ih =>
    cases ph with
    | none => exact ⟨h, hl⟩
    | some ph =>
      rw [kexecLoad]
      refine Ends.bind (kexecSegment_spec hl h) fun r k₁ h₁ => ?_
      split_ifs
      · exact ih h₁.2 h₁.1
      · exact h₁

theorem kexecArgs_spec (lens : List ℕ) {stackbase sp : ℕ} (hl : Layout t.map tf tr sz)
    (h : Books W k (t.pages + F)) :
    Ends (kexecArgs sz stackbase lens t sp k) (fun r k' => Books W k' (r.2.pages + F) ∧
      Layout r.2.map tf tr sz) E := by
  induction lens generalizing t sp k with
  | nil => exact ⟨h, hl⟩
  | cons len lens ih =>
    rw [kexecArgs]
    split_ifs
    · exact ⟨h, hl⟩
    · refine Ends.bind (copyout_spec hl.size h) fun r k₁ h₁ => ?_
      split_ifs
      · exact ih (hl.extend h₁.2) h₁.1
      · exact ⟨h₁.1, hl.extend h₁.2⟩

theorem kexecArgv_spec {stackbase argc : ℕ} (a : Option ℕ × Table) (hl : Layout a.2.map tf tr sz)
    (h : Books W k (a.2.pages + F)) :
    Ends (kexecArgv sz stackbase argc a k) (fun r k' => Books W k' (r.2.pages + F) ∧
      Layout r.2.map tf tr sz) E := by
  obtain ⟨_ | sp, t⟩ := a
  · exact ⟨h, hl⟩
  · rw [kexecArgv]
    split_ifs
    · exact ⟨h, hl⟩
    · exact (copyout_spec hl.size h).imp fun r k₁ h₁ => ⟨h₁.1, hl.extend h₁.2⟩

theorem kexecStack_spec (lens : List ℕ) (hl : Loaded t.map tf tr sz) (h : Books W k (t.pages + F)) :
    Ends (kexecStack lens t sz k) (fun r k' => Books W k' (r.2.1.pages + F) ∧
      Layout r.2.1.map tf tr r.2.2) E := by
  have hround := hl.toLayout.round
  have hstack : (userstack + 1) * pgsize = 2 * pgsize := by decide
  have hfull : ∀ u < pgs (pgs sz * pgsize), t.map u ≠ none := by
    rw [pgs_mul]
    exact hl.full.ne_none
  have hfree : ∀ u, pgs (pgs sz * pgsize) ≤ u → u < tfPage → t.map u = none := hround.free
  rw [kexecStack, pgroundup_eq hl.size]
  refine Ends.bind (uvmalloc_spec hround.size hfree (.inr hfull) h) fun r k₁ h₁ => ?_
  obtain ⟨hb, hzero, hgrown⟩ := h₁
  by_cases hr : r.1 = 0
  · rw [if_pos hr]
    refine ⟨hb, ?_⟩
    rw [hzero hr]
    exact hround
  · obtain ⟨hmax, hsz, hg⟩ := hgrown hr
    have hr₁ : r.1 = (pgs sz + 2) * pgsize := by
      rw [hmax, hstack, Nat.add_mul]
      exact max_eq_right (Nat.le_add_right _ _)
    have hl₁ : Layout (Table.map r.2) tf tr r.1 :=
      hround.grow (hmax.symm ▸ le_max_left _ _) hsz hg
    -- the guard page is the first one of the stack
    have hguard : r.1 - (userstack + 1) * pgsize = pgs sz * pgsize := by
      rw [hr₁, hstack, Nat.add_mul, Nat.add_sub_cancel]
    have hpgs : pgs r.1 = pgs sz + 2 := by rw [hr₁, pgs_mul]
    have hlt : pgs sz < tfPage := by
      have := pgs_le hsz
      omega
    obtain ⟨x, hx⟩ := hg.new (pgs sz) (by rw [pgs_mul]) (by omega)
    rw [if_neg hr, hguard]
    -- where the stack ends plays no role
    generalize r.1 - userstack * pgsize = stackbase
    refine Ends.bind (uvmclear_spec hlt hx hb) fun t₂ k₂ h₂ => ?_
    have hl₂ : Layout t₂.map tf tr r.1 := by
      refine hl₁.below hsz (fun u hu hu' => ?_) fun u hu => ?_
      · rw [h₂.2, update_of_ne (by omega), hl₁.free u hu hu']
      · rw [h₂.2, update_of_ne (by omega)]
    refine Ends.bind (kexecArgs_spec lens hl₂ h₂.1) fun a k₃ h₃ => ?_
    exact Ends.bind (kexecArgv_spec a h₃.2 h₃.1) fun b k₄ h₄ => h₄

/-- `kexec` makes a new address space, or gives all pages back. -/
theorem kexecTable_spec (prog : Program) (lens : List ℕ) (tf : ℕ) (h : Books W k F) :
    Ends (kexecTable prog lens tf k) (Made W F tf) E := by
  have hbad : ∀ {t : Table} {sz : ℕ} {k : Kmem}, Layout t.map tf W.tramp sz →
      Books W k (t.pages + F) →
      Ends ((procFreepagetable t sz >>= fun _ => pure none) k) (Made W F tf) E :=
    fun hl hb => Ends.bind (procFreepagetable_spec hl hb) fun _ _ hk => hk
  rw [kexecTable]
  split_ifs
  · exact h
  · refine Ends.bind (procPagetable_spec tf h) fun o k₁ h₁ => ?_
    cases o with
    | none => exact h₁
    | some t =>
      have hl : Loaded t.map tf W.tramp 0 := ⟨h₁.2, fun u hu => absurd hu (Nat.not_lt_zero u)⟩
      refine Ends.bind (kexecLoad_spec prog.segments hl h₁.1) fun r k₂ h₂ => ?_
      by_cases hr : r.1 = true
      · rw [if_pos hr]
        refine Ends.bind (kexecStack_spec lens h₂.2 h₂.1) fun q k₃ h₃ => ?_
        by_cases hq : q.1 = true
        · rw [if_pos hq]
          exact h₃
        · rw [if_neg hq]
          exact hbad h₃.2 h₃.1
      · rw [if_neg hr]
        exact hbad h₂.2.toLayout h₂.1

end Vm

end TrinityXv6
