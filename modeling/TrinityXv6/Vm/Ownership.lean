import TrinityXv6.Vm.ProcessSpec

/-!
# Physical pages and address spaces

Every physical page has exactly one role between operations, whatever processes have done since boot
and whichever calls of `kalloc` have failed; and every address space has its layout.

An operation that fails has given back what it took. Page-table pages stay in the table of the
caller; so do pages that were mapped on demand before the failure: `copyout` on an address range of
which only the beginning belongs to the process maps that beginning and then fails.

## Main results

* `Vm.page_ownership` — roles of pages
* `Vm.copyout_keeps_page` — an operation fails and keeps a page
* `Vm.address_space_layout` — the layout
-/

namespace TrinityXv6

namespace Vm

open Command
open Multiset
open Option

variable {n x : ℕ} {W : Ram} {s₀ s₁ s s' : Mem n} {hand : Fin nfile → ℤ} {H : Multiset ℕ}
  {p q init : Fin n}

/-! ## The start -/

/-- The state before `userinit`: the kernel has taken the pages that are not free, and there are no
processes and no files. -/
structure Boot (s : Mem n) : Prop where
  proc : ∀ p, s.proc p = ⟨.unused, none, none, 0, none, fun _ => none⟩
  file : ∀ f, s.file f = ⟨0, .none⟩
  pipes : s.pipes = []
  used : s.kmem.used = []
  clean : s.kmem.clean = true
  nodup : s.kmem.free.Nodup
  range : ∀ x ∈ s.kmem.free, s.kmem.lo ≤ x ∧ x < s.kmem.hi

/-- The pages that processes share. -/
def Boot.ram (h : Boot s) (hfew : s.kmem.hi - s.kmem.lo < maxva / pgsize) : Ram where
  lo := s.kmem.lo
  hi := s.kmem.hi
  tramp := s.kmem.tramp
  all := s.kmem.free
  nodup := h.nodup
  range := h.range
  card := by
    have hsub : s.kmem.free.toFinset ⊆ Finset.Ico s.kmem.lo s.kmem.hi := by
      intro x hx
      exact Finset.mem_Ico.mpr (h.range x (List.mem_toFinset.mp hx))
    have hle := Finset.card_le_card hsub
    rw [List.toFinset_card_of_nodup h.nodup, Nat.card_Ico] at hle
    exact hle.trans_lt hfew

theorem Boot.good (h : Boot s) (hfew : s.kmem.hi - s.kmem.lo < maxva / pgsize) :
    Good (h.ram hfew) s 0 0 := by
  have hpages : s.pages = 0 := by
    have hproc : ∀ p, (s.proc p).pages = 0 := fun p => by rw [h.proc p]; rfl
    rw [Mem.pages, h.pipes, Finset.sum_eq_zero fun p _ => hproc p]
    rfl
  refine ⟨⟨⟨rfl, rfl, rfl, h.clean, ?_, ?_⟩, ?_⟩, fun p => ?_⟩
  · rw [hpages, h.used]
    rfl
  · rw [hpages]
    exact add_zero _
  · refine ⟨fun f => ?_, fun f _ => ?_, fun f g pi w hf => ?_, fun f pi w hf => ?_, fun x hx => ?_,
      fun x hx => ?_⟩
    · have huses : uses s.ofiles f = 0 := by
        refine Finset.sum_eq_zero fun p _ => Finset.sum_eq_zero fun fd _ => ?_
        rw [Mem.ofiles, h.proc p]
        rfl
      rw [huses, h.file f]
      rfl
    · rw [h.file f]
    · rw [h.file f] at hf
      cases hf
    · rw [h.file f] at hf
      cases hf
    · rw [h.pipes] at hx
      cases hx
    · rw [h.pipes] at hx
      cases hx
  · rw [h.proc p]
    exact ⟨by rintro ⟨⟩, fun _ => ⟨rfl, rfl, rfl⟩, fun hst => by cases hst <;> contradiction,
      fun _ _ => rfl⟩

/-- The first process. -/
theorem userinit_spec (h : Good W s 0 0) :
    Ends (userinit s) (fun _ s' => Good W s' 0 0) (fun _ => True) := by
  rw [userinit]
  refine Ends.bind (allocproc_spec h) fun o s₁ hs₁ => ?_
  cases o with
  | none => trivial
  | some q =>
    obtain ⟨hs, k, tf, t, rfl, hl, hi⟩ := hs₁
    obtain ⟨-, -, hsz⟩ := (h.procs q).blank hs
    show Ends ((update q _ >>= _) _) _ _
    rw [update_setProc]
    refine .setProc h.procs ?_ ?_
    · refine ⟨nofun, nofun, fun _ => ⟨tf, t, rfl, rfl, ?_⟩,
        fun hst => by cases hst <;> contradiction⟩
      exact hsz.symm ▸ hl
    · rw [← setProc_setProc _ q ((s.proc q).taken (some tf) (some t))]
      refine hi.setProc_same ?_ ?_
      · rw [setProc_self]
        rfl
      · rw [setProc_self]

/-! ## Roles -/

/-- What a physical page can be used for. -/
inductive Role (n : ℕ) where
  | boot
  | free
  | table (p : Fin n)
  | user (p : Fin n) (v : ℕ)
  | trapframe (p : Fin n)
  | pipe (i : ℕ)

/-- Whether page `x` has the role in state `s`. The pages taken before the first process are those
that were not free in `s₀`. -/
def Role.Holds (s₀ s : Mem n) (x : ℕ) : Role n → Prop
  | .boot => x ∉ s₀.kmem.free
  | .free => x ∈ s.kmem.free
  | .table p => ∃ t, (s.proc p).pagetable = some t ∧ x ∈ Radix.nodes 2 t
  | .user p v => ∃ t l, (s.proc p).pagetable = some t ∧ v * pgsize < Vm.trapframe ∧
      t.pte (v * pgsize) = some l ∧ l.ppn = x
  | .trapframe p => (s.proc p).trapframe = some x
  | .pipe i => s.pipes[i]?.map Pipe.page = some x

/-- A user address, as a page. -/
theorem user_iff {t : Table} {v : ℕ} {l : Leaf} :
    v * pgsize < Vm.trapframe ∧ t.pte (v * pgsize) = some l ↔ v < tfPage ∧ t.map v = some l := by
  have hlt : v * pgsize < Vm.trapframe ↔ v < tfPage := by
    rw [trapframe_eq]
    exact Nat.mul_lt_mul_right (by decide)
  rw [hlt]
  refine and_congr_right fun hv => ?_
  have := tfPage_eq
  have := tablePages_eq
  rw [pte_mul t (by omega)]

/-- Where a page of the role is: free, with the pipes, or with a process, as its trapframe, in its
page table or mapped by it. -/
def Role.place : Role n → Option (Option (Fin n × Fin 3))
  | .boot => none
  | .free => none
  | .pipe _ => some none
  | .trapframe p => some (some (p, 0))
  | .table p => some (some (p, 1))
  | .user p _ => some (some (p, 2))

/-- The pages that are there. -/
def placePages (s : Mem n) : Option (Option (Fin n × Fin 3)) → Multiset ℕ
  | none => s.kmem.free
  | some none => pipePages s.pipes
  | some (some (p, 0)) => (s.proc p).trapframe.elim 0 fun x => {x}
  | some (some (p, 1)) => (s.proc p).pagetable.elim 0 (Radix.nodes 2)
  | some (some (p, 2)) => (s.proc p).pagetable.elim 0 fun t => held tfPage t.map

theorem Good.sum_places (h : Good W s 0 0) : ∑ i, placePages s i = W.all := by
  have hproc : ∀ p, ∑ j, placePages s (some (some (p, j))) = (s.proc p).pages := by
    intro p
    rw [Fin.sum_univ_three, Proc.pages, add_assoc]
    show _ + ((s.proc p).pagetable.elim 0 (Radix.nodes 2) +
      (s.proc p).pagetable.elim 0 fun t => held tfPage t.map) = _
    cases (s.proc p).pagetable with
    | none => rw [elim_none, elim_none, elim_none, add_zero]; rfl
    | some t => rw [elim_some, elim_some, elim_some, Table.pages]; rfl
  rw [Fintype.sum_option, Fintype.sum_option, Fintype.sum_prod_type, ← h.inv.books.sum, add_zero,
    Mem.pages, add_comm (placePages s (some none)), Finset.sum_congr rfl fun p _ => hproc p]
  rfl

theorem Good.nodup_places (h : Good W s 0 0) : (∑ i, placePages s i).Nodup := by
  rw [h.sum_places]
  exact W.nodup

theorem Good.nodup_place (h : Good W s 0 0) (i : Option (Option (Fin n × Fin 3))) :
    (placePages s i).Nodup := by
  have hnd := h.nodup_places
  rw [← Finset.add_sum_erase _ _ (Finset.mem_univ i)] at hnd
  exact (nodup_add.mp hnd).1

theorem mem_elim_iff {β : Type} {o : Option β} {f : β → Multiset ℕ} :
    x ∈ o.elim 0 f ↔ ∃ b, o = some b ∧ x ∈ f b := by
  cases o with
  | none =>
    refine iff_of_false (notMem_zero x) ?_
    rintro ⟨b, hb, -⟩
    cases hb
  | some b =>
    refine ⟨fun hx => ⟨b, rfl, hx⟩, ?_⟩
    rintro ⟨_, ⟨⟩, hx⟩
    exact hx

/-- A page with a role is at the place of the role. -/
theorem Role.Holds.mem_place {r : Role n} (h : r.Holds s₀ s x) (hr : r ≠ .boot) :
    x ∈ placePages s r.place := by
  cases r with
  | boot => exact absurd rfl hr
  | free => exact h
  | table p => exact mem_elim_iff.mpr h
  | user p v =>
    obtain ⟨t, l, ht, hv, hm, hl⟩ := h
    obtain ⟨hv', hm'⟩ := user_iff.mp ⟨hv, hm⟩
    exact mem_elim_iff.mpr ⟨t, ht, mem_held_iff.mpr ⟨v, l, hv', hm', hl⟩⟩
  | trapframe p => exact mem_elim_iff.mpr ⟨x, h, mem_singleton_self x⟩
  | pipe i =>
    refine List.mem_iff_getElem?.mpr ⟨i, ?_⟩
    rw [List.getElem?_map]
    exact h

/-- A page that is somewhere has a role. -/
theorem exists_role (s₀ : Mem n) (i : Option (Option (Fin n × Fin 3))) (hx : x ∈ placePages s i) :
    ∃ r : Role n, r ≠ .boot ∧ r.Holds s₀ s x := by
  match i with
  | none => exact ⟨.free, nofun, hx⟩
  | some none =>
    obtain ⟨i, hi⟩ := List.mem_iff_getElem?.mp hx
    rw [List.getElem?_map] at hi
    exact ⟨.pipe i, nofun, hi⟩
  | some (some (p, 0)) =>
    obtain ⟨y, hy, hxy⟩ := mem_elim_iff.mp hx
    cases mem_singleton.mp hxy
    exact ⟨.trapframe p, nofun, hy⟩
  | some (some (p, 1)) => exact ⟨.table p, nofun, mem_elim_iff.mp hx⟩
  | some (some (p, 2)) =>
    obtain ⟨t, ht, hxt⟩ := mem_elim_iff.mp hx
    obtain ⟨v, l, hv, hm, hl⟩ := mem_held_iff.mp hxt
    obtain ⟨hv', hm'⟩ := user_iff.mpr ⟨hv, hm⟩
    exact ⟨.user p v, nofun, t, l, ht, hv', hm', hl⟩

theorem Good.exists_role (s₀ : Mem n) (h : Good W s 0 0) (hx : x ∈ W.all) :
    ∃ r : Role n, r ≠ .boot ∧ r.Holds s₀ s x := by
  rw [← h.sum_places] at hx
  obtain ⟨i, -, hi⟩ := mem_sum.mp hx
  exact Vm.exists_role s₀ i hi

/-- No page has two roles. -/
theorem Good.role_unique (h : Good W s 0 0) {r r' : Role n} (hr : r ≠ .boot) (hr' : r' ≠ .boot)
    (hx : r.Holds s₀ s x) (hx' : r'.Holds s₀ s x) : r = r' := by
  have hplace : r.place = r'.place := eq_of_mem_sum h.nodup_places (Finset.mem_univ _)
    (Finset.mem_univ _) (hx.mem_place hr) (hx'.mem_place hr')
  cases r with
  | boot => exact absurd rfl hr
  | free =>
    cases r' with
    | boot => exact absurd rfl hr'
    | free => rfl
    | _ => cases hplace
  | table p =>
    cases r' with
    | table q =>
      cases hplace
      rfl
    | _ => cases hplace
  | trapframe p =>
    cases r' with
    | trapframe q =>
      cases hplace
      rfl
    | _ => cases hplace
  | user p v =>
    cases r' with
    | user q w =>
      cases hplace
      obtain ⟨t, l, ht, hv, hm, hl⟩ := hx
      obtain ⟨t', l', ht', hv', hm', hl'⟩ := hx'
      obtain rfl : t = t' := some.inj (ht.symm.trans ht')
      obtain ⟨hv, hm⟩ := user_iff.mp ⟨hv, hm⟩
      obtain ⟨hv', hm'⟩ := user_iff.mp ⟨hv', hm'⟩
      have hnd : (held tfPage t.map).Nodup := by
        have := h.nodup_place (some (some (p, 2)))
        rwa [placePages, ht, elim_some] at this
      rw [eq_of_held hnd hv hv' hm hm' (hl.trans hl'.symm)]
    | _ => cases hplace
  | pipe i =>
    cases r' with
    | pipe j =>
      have hnd : (s.pipes.map Pipe.page).Nodup := coe_nodup.mp (h.nodup_place (some none))
      have hi : (s.pipes.map Pipe.page)[i]? = some x := by
        rw [List.getElem?_map]
        exact hx
      have hj : (s.pipes.map Pipe.page)[j]? = some x := by
        rw [List.getElem?_map]
        exact hx'
      obtain ⟨hi', hxi⟩ := List.getElem?_eq_some_iff.mp hi
      obtain ⟨hj', hxj⟩ := List.getElem?_eq_some_iff.mp hj
      rw [hnd.getElem_inj_iff.mp (hxi.trans hxj.symm)]
    | _ => cases hplace

/-- Every page has exactly one role, and the roles are those of what exists. -/
structure Owned (s₀ s : Mem n) : Prop where
  /-- A page of the machine has one role. -/
  role : ∀ x, s₀.kmem.lo ≤ x → x < s₀.kmem.hi → ∃! r : Role n, r.Holds s₀ s x
  /-- Only pages of the machine have roles. -/
  range : ∀ x (r : Role n), r ≠ .boot → r.Holds s₀ s x → s₀.kmem.lo ≤ x ∧ x < s₀.kmem.hi
  /-- A free page is on the free list once. -/
  free : s.kmem.free.Nodup
  /-- A page is at one place of a page table. -/
  nodes : ∀ p t, (s.proc p).pagetable = some t → (Radix.nodes 2 t).Nodup
  /-- `kfree` has never been applied to a page that was free or in use elsewhere. -/
  clean : s.kmem.clean = true
  /-- The pages in use are those of page tables, of users, of trapframes and of pipes. -/
  used : (s.kmem.used : Multiset ℕ) = s.pages
  /-- A process that has been freed has no pages. -/
  unused : ∀ p, (s.proc p).stage = .unused →
    (s.proc p).trapframe = none ∧ (s.proc p).pagetable = none
  /-- A pipe is used by a process. -/
  pipe : ∀ y ∈ s.pipes, ∃ p fd f w, (s.proc p).stage = .live ∧ (s.proc p).ofile fd = some f ∧
    (s.file f).kind = .pipe y.page w

theorem Good.used_pipe (h : Good W s 0 0) {y : Pipe} (hy : y ∈ s.pipes) :
    ∃ p fd f w, (s.proc p).stage = .live ∧ (s.proc p).ofile fd = some f ∧
      (s.file f).kind = .pipe y.page w := by
  obtain ⟨w, hw⟩ := h.inv.files.used y hy
  obtain ⟨f, hf⟩ := (h.inv.files.ends y hy w).mp hw
  have hpos : (s.file f).ref ≠ 0 := fun hz => by
    rw [h.inv.files.idle f hz] at hf
    cases hf
  have hcount := h.inv.files.count f
  rw [Pi.zero_apply] at hcount
  obtain ⟨p, fd, ho⟩ := exists_of_one_le_uses (o := s.ofiles) (f := f) (by omega)
  refine ⟨p, fd, f, w, ?_, ho, hf⟩
  have hok := h.procs p
  have hno : ∀ {st}, (s.proc p).stage = st → st = .unused ∨ st = .zombie → False := by
    rintro st hst hor
    have hnone := hok.files (hst ▸ hor) fd
    cases hnone.symm.trans ho
  cases hst : (s.proc p).stage with
  | unused => exact (hno hst (.inl rfl)).elim
  | used => exact absurd hst hok.used
  | live => rfl
  | zombie => exact (hno hst (.inr rfl)).elim

theorem Good.owned {hboot : Boot s₀} {hfew : s₀.kmem.hi - s₀.kmem.lo < maxva / pgsize}
    (h : Good (hboot.ram hfew) s 0 0) : Owned s₀ s := by
  have hall : ∀ {x : ℕ} {r : Role n}, r ≠ .boot → r.Holds s₀ s x → x ∈ s₀.kmem.free := by
    intro x r hr hx
    have hmem : x ∈ ∑ i, placePages s i :=
      mem_sum.mpr ⟨r.place, Finset.mem_univ _, hx.mem_place hr⟩
    rw [h.sum_places] at hmem
    exact hmem
  refine ⟨fun x hlo hhi => ?_, fun x r hr hx => hboot.range x ?_, ?_, fun p t ht => ?_,
    h.inv.books.clean, by simpa using h.inv.books.used, fun p hp => ?_, fun y hy => h.used_pipe hy⟩
  · by_cases hx : x ∈ s₀.kmem.free
    · obtain ⟨r, hr, hh⟩ := h.exists_role s₀ hx
      refine ⟨r, hh, fun r' hh' => h.role_unique (fun hb => ?_) hr hh' hh⟩
      rw [hb] at hh'
      exact hh' hx
    · refine ⟨.boot, hx, fun r' hh' => ?_⟩
      by_contra hr'
      exact hx (hall hr' hh')
  · exact hall hr hx
  · exact coe_nodup.mp (h.nodup_place none)
  · have hnd := h.nodup_place (some (some (p, 1)))
    rwa [placePages, ht, elim_some] at hnd
  · obtain ⟨htf, ht, -⟩ := (h.procs p).blank hp
    exact ⟨htf, ht⟩

/-- What process `p` has kept of the pages that were free in `s`: page-table pages, and pages that
were missing below its size. -/
def Returned (s₀ : Mem n) (p : Fin n) (s s' : Mem n) : Prop :=
  ∀ x ∈ s.kmem.free, x ∈ s'.kmem.free ∨ Role.Holds s₀ s' x (.table p) ∨
    ∃ v, v * pgsize < (s.proc p).sz ∧ Role.Holds s₀ s' x (.user p v) ∧
      ∀ t, (s.proc p).pagetable = some t → t.pte (v * pgsize) = none

theorem Back.returned (h : Good W s 0 0) (h' : Good W s' 0 0) (hb : Back p s s') :
    Returned s₀ p s s' := by
  intro x hx
  have hfree : ∀ {r : Role n}, r ≠ .boot → r ≠ .free → r.Holds s₀ s x → False := by
    intro r hr hf hh
    have hx' : Role.Holds s₀ s x .free := hx
    exact hf (h.role_unique hr nofun hh hx')
  have hall : x ∈ W.all := by
    rw [← h.inv.books.sum]
    exact mem_add.mpr (.inl hx)
  obtain ⟨t, t', ht, hp, he⟩ := hb.self
  obtain ⟨r, hr, hh⟩ := h'.exists_role s₀ hall
  cases r with
  | boot => exact absurd rfl hr
  | free => exact .inl hh
  | table q =>
    by_cases hq : q = p
    · exact .inr (.inl (hq ▸ hh))
    · refine (hfree (r := .table q) nofun nofun ?_).elim
      rw [Role.Holds, ← hb.others q hq]
      exact hh
  | user q v =>
    by_cases hq : q = p
    · subst hq
      obtain ⟨t₁, l, ht₁, hv, hm, hl⟩ := hh
      rw [hp] at ht₁
      obtain rfl : t' = t₁ := some.inj ht₁
      obtain ⟨hv', hm'⟩ := user_iff.mp ⟨hv, hm⟩
      rcases he v with hsame | ⟨hnone, hlt, -⟩
      · rw [hsame] at hm'
        obtain ⟨-, hm⟩ := user_iff.mpr ⟨hv', hm'⟩
        exact (hfree (r := .user q v) nofun nofun ⟨t, l, ht, hv, hm, hl⟩).elim
      · refine .inr (.inr ⟨v, lt_pgs_iff.mp hlt, ⟨t', l, ?_, hv, hm, hl⟩, fun t₁ ht₁ => ?_⟩)
        · rw [hp]
        · obtain rfl : t = t₁ := some.inj (ht.symm.trans ht₁)
          have := tfPage_eq
          have := tablePages_eq
          rw [pte_mul t (by omega), hnone]
    · refine (hfree (r := .user q v) nofun nofun ?_).elim
      rw [Role.Holds, ← hb.others q hq]
      exact hh
  | trapframe q =>
    refine (hfree (r := .trapframe q) nofun nofun ?_).elim
    by_cases hq : q = p
    · rw [Role.Holds, hq, hp] at hh
      rw [Role.Holds, hq]
      exact hh
    · rw [Role.Holds, ← hb.others q hq]
      exact hh
  | pipe i =>
    refine (hfree (r := .pipe i) nofun nofun ?_).elim
    rw [Role.Holds, ← hb.pipes]
    exact hh

/-- **Physical pages.** After any operations of any processes since the first one was made, and
whichever calls of `kalloc` have failed, every page from the end of the kernel to `PHYSTOP` has
exactly one role; and the next operation, if it fails, has given back all pages that it has taken
but page-table pages and pages of the caller mapped on demand. -/
theorem page_ownership (hboot : Boot s₀) (hlo : kernbase ≤ s₀.kmem.lo * pgsize)
    (hhi : s₀.kmem.hi * pgsize = phystop) (hinit : userinit s₀ = .ok (some init, s₁))
    (xs : List (Fin n × Op)) :
    Ends (run init xs s₁) (fun _ s => Owned s₀ s ∧ ∀ x, Ends (step init x s)
      (fun r s' => r = .failed → Returned s₀ x.1 s s') (· = .initExiting)) (· = .initExiting) := by
  have hfew : s₀.kmem.hi - s₀.kmem.lo < maxva / pgsize := by
    have hlo' : 0x80000000 ≤ s₀.kmem.lo * 4096 := hlo
    have hhi' : s₀.kmem.hi * 4096 = 0x80000000 + 128 * 1024 * 1024 := hhi
    have hmax : maxva / pgsize = 67108864 := maxPages_eq
    omega
  have hgood : Good (hboot.ram hfew) s₁ 0 0 := (userinit_spec (hboot.good hfew)).ok hinit
  refine (run_spec (E := (· = .initExiting)) init xs hgood rfl).imp fun _ s hs =>
    ⟨hs.owned, fun x => ?_⟩
  exact (step_spec (E := (· = .initExiting)) init x hs rfl).imp fun r s' hs' hr =>
    (hs'.2 hr).returned hs hs'.1

/-- A machine with twelve free pages. -/
def twelvePages : Mem 2 where
  kmem := ⟨kernbase / pgsize, phystop / pgsize, kernbase / pgsize,
    (List.range 12).map (kernbase / pgsize + 1 + ·), [], [], true⟩
  proc _ := ⟨.unused, none, none, 0, none, fun _ => none⟩
  file _ := ⟨0, .none⟩
  pipes := []

theorem boot_twelvePages : Boot twelvePages where
  proc _ := rfl
  file _ := rfl
  pipes := rfl
  used := rfl
  clean := rfl
  nodup := by decide
  range := by decide

theorem userinit_twelvePages : ∃ s₁, userinit twelvePages = .ok (some 0, s₁) := by
  have hrun : (userinit twelvePages).toOption.any (fun r => r.1 = some 0) = true := by
    decide +kernel
  obtain ⟨r, hr, h⟩ := exists_of_toOption_any hrun
  exact ⟨r.2, hr.trans (congrArg Except.ok (Prod.ext (of_decide_eq_true h) rfl))⟩

/-- All operations that two processes can do with twelve pages. -/
theorem page_ownership_twelvePages : ∃ s₁, userinit twelvePages = .ok (some 0, s₁) ∧
    ∀ xs, Ends (run 0 xs s₁) (fun _ s => Owned twelvePages s ∧ ∀ x, Ends (step 0 x s)
      (fun r s' => r = .failed → Returned twelvePages x.1 s s') (· = .initExiting))
      (· = .initExiting) := by
  obtain ⟨s₁, h⟩ := userinit_twelvePages
  exact ⟨s₁, h, page_ownership boot_twelvePages (by decide) (by decide) h⟩

/-- A process that has grown by a page lazily asks for two pages to be written. The first one is
mapped, and `copyout` fails at the second one: the page is neither free nor part of a page table. -/
theorem copyout_keeps_page : ∃ s₁ s s' : Mem 2, ∃ x,
    userinit twelvePages = .ok (some 0, s₁) ∧ run 0 [(0, .sysSbrk 4096 2)] s₁ = .ok ((), s) ∧
    step 0 (0, .copyout 0 8192) s = .ok (.failed, s') ∧ x ∈ s.kmem.free ∧ x ∉ s'.kmem.free ∧
    ∀ p, ¬ Role.Holds twelvePages s' x (.table p) := by
  obtain ⟨s₁, h₁⟩ := userinit_twelvePages
  -- run both operations, and look at the page that is mapped at address 0
  have hrun : (userinit twelvePages).toOption.any (fun r₁ =>
      (run 0 [(0, .sysSbrk 4096 2)] r₁.2).toOption.any fun r =>
        (step 0 (0, .copyout 0 8192) r.2).toOption.any fun r' =>
          r'.1 = .failed && ((r'.2.proc 0).pagetable.any fun t =>
            (t.pte 0).any fun l => r.2.kmem.free.contains l.ppn)) = true := by
    decide +kernel
  obtain ⟨r₁, hr₁, hrun⟩ := exists_of_toOption_any hrun
  obtain rfl : r₁ = (some 0, s₁) := Except.ok.inj (hr₁.symm.trans h₁)
  obtain ⟨⟨⟨⟩, s⟩, hs, hrun⟩ := exists_of_toOption_any hrun
  obtain ⟨⟨res, s'⟩, hs', hrun⟩ := exists_of_toOption_any hrun
  obtain ⟨hres, hrun⟩ := Bool.and_eq_true_iff.mp hrun
  obtain rfl : res = .failed := of_decide_eq_true hres
  obtain ⟨t, ht, hrun⟩ := (any_eq_true _ _).mp hrun
  obtain ⟨l, hl, hrun⟩ := (any_eq_true _ _).mp hrun
  have hfew : twelvePages.kmem.hi - twelvePages.kmem.lo < maxva / pgsize := by decide
  have hgood : Good (boot_twelvePages.ram hfew) s₁ 0 0 :=
    (userinit_spec (boot_twelvePages.good hfew)).ok h₁
  have hgood : Good (boot_twelvePages.ram hfew) s 0 0 :=
    (run_spec 0 _ hgood rfl).ok hs
  have hgood : Good (boot_twelvePages.ram hfew) s' 0 0 :=
    ((step_spec 0 _ hgood rfl).ok hs').1
  have huser : Role.Holds twelvePages s' l.ppn (.user 0 0) := ⟨t, l, ht, by decide, hl, rfl⟩
  have hrole : ∀ r : Role 2, r ≠ .boot → Role.Holds twelvePages s' l.ppn r → r = .user 0 0 :=
    fun r hr hx => hgood.role_unique hr nofun hx huser
  refine ⟨s₁, s, s', l.ppn, h₁, hs, hs', List.contains_iff_mem.mp hrun, fun hx => ?_,
    fun p hx => ?_⟩
  · cases hrole .free nofun hx
  · cases hrole (.table p) nofun hx

/-! ## Address spaces -/

/-- What the layout says about the leaf at an address. -/
theorem Layout.leaf {t : Table} {tf tr sz va : ℕ} {l : Leaf} (h : Layout t.map tf tr sz)
    (hva : va < 2 ^ 39) (hl : t.pte va = some l) :
    (l.perm.u = true → va < pgroundup sz) ∧ (pgroundup sz ≤ va → l.perm.u = false ∧
      (va / pgsize = Vm.trapframe / pgsize ∨ va / pgsize = Vm.trampoline / pgsize)) := by
  have htab := tablePages_eq
  have hmap : t.map (va / pgsize) = some l := by
    have hlt : va / pgsize < tablePages := by
      show va / 4096 < tablePages
      omega
    rw [Table.map, if_pos hlt]
    exact hl
  have hround : pgroundup sz = pgs sz * pgsize := pgroundup_eq h.size
  -- below the size, or one of the two pages at the top
  rcases Nat.lt_or_ge (va / pgsize) (pgs sz) with hlt | hge
  · have hva' : va < pgroundup sz := by
      rw [hround]
      exact (Nat.div_lt_iff_lt_mul (by decide)).mp hlt
    exact ⟨fun _ => hva', fun hle => absurd hva' (Nat.not_lt.mpr hle)⟩
  · have htop := h.top hge hmap
    rw [trampoline_eq, trapframe_eq, mul_pgsize_div, mul_pgsize_div]
    refine ⟨fun hu => ?_, fun _ => htop⟩
    rw [htop.1] at hu
    cases hu

/-- **Layout.** After any operations of any processes, on a machine with fewer pages than an address
space has: the size of a process is at most `TRAPFRAME`, whatever is mapped for the user is below
the size, rounded up, and nothing is mapped from there on but the trapframe and the trampoline,
which the user cannot access. No operation panics, except when the first process exits. -/
theorem address_space_layout (hboot : Boot s₀)
    (hfew : s₀.kmem.hi - s₀.kmem.lo < maxva / pgsize)
    (hinit : userinit s₀ = .ok (some init, s₁)) (xs : List (Fin n × Op)) :
    Ends (run init xs s₁) (fun _ s => ∀ p, (s.proc p).sz ≤ Vm.trapframe ∧
      ∀ t, (s.proc p).pagetable = some t → ∀ va < 2 ^ 39, ∀ l, t.pte va = some l →
        (l.perm.u = true → va < pgroundup (s.proc p).sz) ∧
        (pgroundup (s.proc p).sz ≤ va → l.perm.u = false ∧
          (va / pgsize = Vm.trapframe / pgsize ∨ va / pgsize = Vm.trampoline / pgsize)))
      (· = .initExiting) := by
  have hgood : Good (hboot.ram hfew) s₁ 0 0 := (userinit_spec (hboot.good hfew)).ok hinit
  refine (run_spec (E := (· = .initExiting)) init xs hgood rfl).imp fun _ s hs p => ?_
  have hok := hs.procs p
  by_cases hspace : HasSpace (hboot.ram hfew) (s.proc p)
  · obtain ⟨tf, t₁, -, ht₁, hl⟩ := hspace
    refine ⟨hl.size, fun t ht va hva l => ?_⟩
    obtain rfl : t₁ = t := some.inj (ht₁.symm.trans ht)
    exact hl.leaf hva
  cases hst : (s.proc p).stage with
  | unused =>
    obtain ⟨-, ht, hsz⟩ := hok.blank hst
    refine ⟨hsz.trans_le (Nat.zero_le _), fun t ht' => ?_⟩
    cases ht.symm.trans ht'
  | used => exact absurd hst hok.used
  | live => exact absurd (hok.space (.inl hst)) hspace
  | zombie => exact absurd (hok.space (.inr hst)) hspace

/-- The address spaces of two processes with twelve pages. -/
theorem address_space_layout_twelvePages : ∃ s₁, userinit twelvePages = .ok (some 0, s₁) ∧
    ∀ xs, Ends (run 0 xs s₁) (fun _ s => ∀ p, (s.proc p).sz ≤ Vm.trapframe ∧
      ∀ t, (s.proc p).pagetable = some t → ∀ va < 2 ^ 39, ∀ l, t.pte va = some l →
        (l.perm.u = true → va < pgroundup (s.proc p).sz) ∧
        (pgroundup (s.proc p).sz ≤ va → l.perm.u = false ∧
          (va / pgsize = Vm.trapframe / pgsize ∨ va / pgsize = Vm.trampoline / pgsize)))
      (· = .initExiting) := by
  obtain ⟨s₁, h⟩ := userinit_twelvePages
  exact ⟨s₁, h, address_space_layout boot_twelvePages (by decide) h⟩

/-- **Open files.** After any operations of any processes, the count of a file is the number of
descriptors that name it, a file that nobody names is blank, and an end of a pipe is open exactly
if one file of the table is that end. -/
theorem file_table (hboot : Boot s₀) (hfew : s₀.kmem.hi - s₀.kmem.lo < maxva / pgsize)
    (hinit : userinit s₀ = .ok (some init, s₁)) (xs : List (Fin n × Op)) :
    Ends (run init xs s₁) (fun _ s => Files s.file s.pipes s.ofiles 0) (· = .initExiting) := by
  have hgood := (userinit_spec (hboot.good hfew)).ok hinit
  exact (run_spec (E := (· = .initExiting)) init xs hgood rfl).imp fun _ s hs => hs.inv.files

theorem file_table_twelvePages : ∃ s₁, userinit twelvePages = .ok (some 0, s₁) ∧
    ∀ xs, Ends (run 0 xs s₁) (fun _ s => Files s.file s.pipes s.ofiles 0) (· = .initExiting) := by
  obtain ⟨s₁, h⟩ := userinit_twelvePages
  exact ⟨s₁, h, file_table boot_twelvePages (by decide) h⟩

end Vm

end TrinityXv6
