import TrinityXv6.Vm.AddressSpace
import TrinityXv6.Vm.Ownership

/-!
# Lazy and eager growth

`sys_sbrk` can allocate the memory that a process asks for, or only note the new size and leave the
allocation to page faults. As long as no allocation fails, processes cannot tell which it was: what
they see of their memory are the address spaces of `TrinityXv6.Vm.AddressSpace`, and on these both
ways of growing are the same.

## Main definitions

* `Vm.Users` — what processes see, with the effect of every operation on it
* `Vm.Machine.users` — what processes see of a machine

## Main results

* `Vm.Machine.step_users` — an operation does what it should to what processes see
* `Vm.Machine.lazy_eager` — lazy and eager growth have the same outcomes
-/

namespace TrinityXv6

namespace Vm

open Command

variable {n : ℕ}

/-- A process, as far as it can be seen. -/
inductive Slot where
  | unused
  | gone
  | live (s : Space)

/-- Whether the slot is free. -/
def Slot.isUnused : Slot → Bool
  | .unused => true
  | _ => false

/-- `sys_sbrk`: the result does not depend on how memory grows. -/
def Space.sbrk (s : Space) (k : Int32) : Option ℕ × Space :=
  if k.toInt < 0 then
    let sz := min s.sz ((s.sz + (2 ^ 64 - (-k.toInt).toNat)) % 2 ^ 64)
    (some s.sz, ⟨sz, fun v => if v < pgs sz then s.page v else fresh⟩)
  else if Vm.trapframe < s.sz + k.toInt.toNat then (none, s)
  else (some s.sz, { s with sz := s.sz + k.toInt.toNat })

/-- What processes see. -/
@[ext] structure Users (n : ℕ) where
  slot : Fin n → Slot
  nextpid : ℕ

namespace Users

/-- Change one slot. -/
def set (u : Users n) (p : Fin n) (x : Slot) : Users n :=
  { u with slot := Function.update u.slot p x }

theorem set_self (u : Users n) (p : Fin n) (x : Slot) : (u.set p x).slot p = x :=
  Function.update_self ..

theorem set_of_ne (u : Users n) {p q : Fin n} (x : Slot) (h : q ≠ p) :
    (u.set p x).slot q = u.slot q :=
  Function.update_of_ne h ..

/-- A process is killed. -/
def exits (init p : Fin n) (u : Users n) : Machine.Out × Users n :=
  if p = init then (.initExiting, u) else (.killed, u.set p .gone)

/-- A new process gets a copy of the address space. -/
def kfork (s : Space) (u : Users n) : Machine.Out × Users n :=
  match (List.finRange n).find? fun q => (u.slot q).isUnused with
  | none => (.value none, u)
  | some q => (.value (some u.nextpid), { u.set q (.live s) with nextpid := u.nextpid + 1 })

/-- One operation of process `p`, which has the address space `s`. -/
def act (init p : Fin n) (s : Space) (u : Users n) : Machine.Op → Machine.Out × Users n
  | .load va =>
    match (s.load va).1 with
    | none => u.exits init p
    | some b => (.byte b, u)
  | .store va b =>
    if (s.store va b).1 then (.stored, u.set p (.live (s.store va b).2)) else u.exits init p
  | .copyin srcva len =>
    (.copied (s.copyinFrom len [] srcva len).1 (s.copyinFrom len [] srcva len).2, u)
  | .copyout dstva src =>
    (.copied (s.copyoutFrom src.length dstva src).1 [],
      u.set p (.live (s.copyoutFrom src.length dstva src).2))
  | .copyinstr srcva max =>
    (.copied (s.copyinstrFrom max [] srcva max).1 (s.copyinstrFrom max [] srcva max).2, u)
  | .sysSbrk k _ => (.value (s.sbrk k).1, u.set p (.live (s.sbrk k).2))
  | .kfork => u.kfork s

/-- One operation of a process that is alive; others do nothing. -/
def step (init : Fin n) (x : Fin n × Machine.Op) (u : Users n) : Machine.Out × Users n :=
  match u.slot x.1 with
  | .live s => u.act init x.1 s x.2
  | _ => (.idle, u)

end Users

namespace Machine

/-- What can be seen of a process. -/
def slot (m : Machine n) (p : Fin n) : Slot :=
  match (m.mem.proc p).stage with
  | .unused => .unused
  | .live => .live ⟨(m.mem.proc p).sz,
      (m.mem.proc p).pagetable.elim (fun _ => fresh) fun t => pagesOf m.data t.map⟩
  | _ => .gone

/-- What processes see. -/
def users (m : Machine n) : Users n := ⟨m.slot, m.nextpid⟩

variable {α : Type} {W : Ram} {m m' : Machine n} {p q init : Fin n} {t : Table} {E : Panic → Prop}

theorem slot_live (hp : (m.mem.proc p).stage = .live) (ht : (m.mem.proc p).pagetable = some t) :
    m.slot p = .live (m.frames.space t (m.mem.proc p).sz) := by
  rw [slot, hp, ht]
  rfl

theorem slot_of_not_live (hp : (m.mem.proc p).stage ≠ .live) : ∀ s, m.slot p ≠ .live s := by
  intro s
  rw [slot]
  cases hst : (m.mem.proc p).stage with
  | live => exact absurd hst hp
  | _ => rintro ⟨⟩

/-- What a process sees depends on its slot of the process table and the pages that it maps. -/
theorem slot_congr (hs : (m'.mem.proc p).stage = (m.mem.proc p).stage)
    (hsz : (m'.mem.proc p).sz = (m.mem.proc p).sz)
    (ht : (m'.mem.proc p).pagetable = (m.mem.proc p).pagetable)
    (hd : ∀ t, (m.mem.proc p).pagetable = some t → ∀ x ∈ held tfPage t.map, m'.data x = m.data x) :
    m'.slot p = m.slot p := by
  rw [slot, slot, hs, hsz, ht]
  cases htab : (m.mem.proc p).pagetable with
  | none => rfl
  | some t =>
    rw [Option.elim_some, Option.elim_some, pagesOf_congr (hd t htab)]

theorem slot_congr_proc (h : m'.mem.proc p = m.mem.proc p)
    (hd : ∀ t, (m.mem.proc p).pagetable = some t → ∀ x ∈ held tfPage t.map, m'.data x = m.data x) :
    m'.slot p = m.slot p :=
  slot_congr (by rw [h]) (by rw [h]) (by rw [h]) hd

theorem slot_isUnused (m : Machine n) (p : Fin n) :
    (m.slot p).isUnused = decide ((m.mem.proc p).stage = .unused) := by
  rw [slot]
  cases (m.mem.proc p).stage <;> rfl

/-! ## Code on an address space -/

/-- The state after code on the page table of a process. -/
def setSpace (m : Machine n) (p : Fin n) (f : Frames) (t : Table) (sz : ℕ) : Machine n where
  mem := ({ m.mem with kmem := f.kmem } : Mem n).setProc p
    { m.mem.proc p with pagetable := some t, sz := sz }
  data := f.data
  short := f.short
  nextpid := m.nextpid

variable {s : Space} {c : Table → ℕ → FM (α × Table)} {sz : ℕ} {A : Space → α × Space}

theorem setSpace_self {f : Frames} {t' : Table} :
    (m.setSpace p f t' sz).mem.proc p = { m.mem.proc p with pagetable := some t', sz := sz } :=
  setProc_self ..

theorem setSpace_of_ne {f : Frames} {t' : Table} (h : q ≠ p) :
    (m.setSpace p f t' sz).mem.proc q = m.mem.proc q :=
  setProc_of_ne _ h

theorem onTable_spec {Q : α × Table → Frames → Prop} (ht : (m.mem.proc p).pagetable = some t)
    (hc : Ends (c t (m.mem.proc p).sz m.frames) Q E) : Ends (onTable p c m) (fun a m' => ∃ f' t',
      m' = m.setSpace p f' t' (m.mem.proc p).sz ∧ Q (a, t') f') E := by
  rw [onTable, get_bind, ht]
  have hframes : Ends (onFrames (c t (m.mem.proc p).sz) m)
      (fun r m₁ => ∃ f', m₁ = m.setFrames f' ∧ Q r f') E := zoom_spec hc
  refine Ends.bind hframes fun r m₁ hm₁ => ?_
  obtain ⟨f', rfl, hq⟩ := hm₁
  exact ⟨f', r.2, rfl, hq⟩

/-- The pages that a process does not hold; those of the others are among them. -/
theorem exists_books {s : Mem n} {hand : Fin nfile → ℤ} (h : Inv W s hand 0)
    (ht : (s.proc p).pagetable = some t) :
    ∃ F, Books W s.kmem (t.pages + F) ∧ ∀ q ≠ p, ∀ t', (s.proc q).pagetable = some t' →
      ∀ x ∈ held tfPage t'.map, x ∈ F := by
  obtain ⟨rest, hrest, hput⟩ := pages_split s p
  refine ⟨(s.proc p).trapframe.elim 0 (fun x => {x}) + rest, h.books.of_eq ?_, ?_⟩
  · rw [hrest, Proc.pages, ht, Option.elim_some]
    abel
  · intro q hq t' ht' x hx
    refine Multiset.mem_add.mpr (.inr ?_)
    -- take the pages of `p` away: those of `q` are still there
    have hblank := hput (s.proc p).blank
    rw [show (s.proc p).blank.pages = 0 from rfl, zero_add] at hblank
    rw [← hblank, Mem.pages]
    refine Multiset.mem_add.mpr (.inl (Multiset.mem_sum.mpr ⟨q, Finset.mem_univ q, ?_⟩))
    rw [setProc_of_ne _ hq, Proc.pages, ht', Option.elim_some, Table.pages]
    exact Multiset.mem_add.mpr (.inr (Multiset.mem_add.mpr (.inr hx)))

/-- What processes see after code on the address space of one of them. -/
theorem users_setSpace (f : Frames) (t' : Table) (sz : ℕ) (hp : (m.mem.proc p).stage = .live)
    (hframe : ∀ q ≠ p, ∀ t, (m.mem.proc q).pagetable = some t →
      ∀ x ∈ held tfPage t.map, f.data x = m.data x) :
    (m.setSpace p f t' sz).users = m.users.set p (.live (f.space t' sz)) := by
  refine Users.ext (funext fun q => ?_) rfl
  by_cases hq : q = p
  · subst hq
    rw [Users.set_self]
    refine (slot_live (t := t') ?_ ?_).trans ?_
    · rw [setSpace_self]
      exact hp
    · rw [setSpace_self]
    · rw [setSpace_self]
      rfl
  · rw [Users.set_of_ne _ _ hq]
    exact slot_congr_proc (setSpace_of_ne hq) (hframe q hq)

/-- Code that does `A` to the address space of the process. -/
theorem access_users {P : Prop} (h : Good W m.mem 0 0) (hp : (m.mem.proc p).stage = .live)
    (hc : ∀ t tf F, Layout t.map tf W.tramp (m.mem.proc p).sz →
      Books W m.frames.kmem (t.pages + F) → Ends (c t (m.mem.proc p).sz m.frames) (fun r f' =>
        Frames.Did W tf (m.mem.proc p).sz F m.frames f' r.2
          (P → A (m.frames.space t (m.mem.proc p).sz) = (r.1, f'.space r.2 (m.mem.proc p).sz))) E) :
    ∃ s, m.slot p = .live s ∧ Ends (onTable p c m) (fun a m' => m'.short = false →
      m.short = false ∧ (P → a = (A s).1 ∧ m'.users = m.users.set p (.live (A s).2))) E := by
  obtain ⟨tf, t, -, ht, hl⟩ := h.space hp
  obtain ⟨F, hb, hF⟩ := exists_books h.inv ht
  refine ⟨_, slot_live hp ht, (onTable_spec ht (hc t tf F hl hb)).imp ?_⟩
  rintro a _ ⟨f', t', rfl, hdid⟩ hs
  obtain ⟨hs₀, hP⟩ := hdid.seen hs
  refine ⟨hs₀, fun hp' => ?_⟩
  rw [hP hp', users_setSpace _ _ _ hp fun q hq t hq' x hx => hdid.frame x (hF q hq t hq' x hx)]
  exact ⟨rfl, rfl⟩

theorem onMem_spec {c : MM n α} {Q : α → Mem n → Prop} (h : Ends (c m.mem) Q E) :
    Ends (onMem c m) (fun a m' => ∃ s, m' = { m with mem := s } ∧ Q a s) E :=
  zoom_spec h

theorem users_set_self (hs : m.slot p = .live s) : m.users.set p (.live s) = m.users :=
  Users.ext (by rw [← hs]; exact Function.update_eq_self ..) rfl

/-- A process exits; nobody else notices. -/
theorem exits_users (h : Good W m.mem 0 0) : Ends (exits init p m) (fun r m' => m'.short = m.short ∧
      m.users.exits init p = (r, m'.users)) fun _ => True := by
  rw [exits, Users.exits]
  by_cases hinit : p = init
  · rw [if_pos hinit, if_pos hinit]
    exact ⟨rfl, rfl⟩
  rw [if_neg hinit, if_neg hinit]
  have hexit : Ends (Vm.kexit init p m.mem) (fun _ s' => (s'.proc p).stage = .zombie ∧
      ∀ q ≠ p, (s'.proc q).stage = (m.mem.proc q).stage ∧ (s'.proc q).sz = (m.mem.proc q).sz ∧
        (s'.proc q).pagetable = (m.mem.proc q).pagetable) fun _ => True := by
    rw [Vm.kexit, if_neg hinit]
    refine Ends.bind (kexitFiles_spec (List.finRange nofile) h.inv) fun _ s₁ hs₁ => ?_
    obtain ⟨-, k, file, pipes, o, hs₁, -⟩ := hs₁
    rw [modify_bind, update_bind]
    refine ⟨by rw [setProc_self], fun q hq => ?_⟩
    obtain ⟨x, hx⟩ := reparent_proc init p q s₁
    rw [setProc_of_ne _ hq, hx, hs₁, setProc_of_ne _ hq]
    exact ⟨rfl, rfl, rfl⟩
  refine Ends.bind (onMem_spec hexit) fun _ m' hm' => ?_
  obtain ⟨s', rfl, hz, hother⟩ := hm'
  refine ⟨rfl, congrArg (Prod.mk _) (Users.ext (funext fun q => ?_) rfl)⟩
  by_cases hq : q = p
  · rw [hq, Users.set_self]
    show Slot.gone = slot _ p
    rw [slot]
    rw [hz]
  · obtain ⟨hst, hsz, ht⟩ := hother q hq
    rw [Users.set_of_ne _ _ hq]
    have hsame : slot { m with mem := s' } q = m.slot q := slot_congr hst hsz ht fun _ _ _ _ => rfl
    exact hsame.symm

/-! ## Growing and shrinking -/

/-- What is left of the pages when memory shrinks. -/
theorem pagesOf_without {data : ℕ → Page} {tf tr new : ℕ} (hl : Layout t.map tf tr sz) :
    pagesOf data (without t.map (pgs new) (pgs sz)) =
      fun v => if v < pgs (min sz new) then pagesOf data t.map v else fresh := by
  have hmin : pgs (min sz new) = min (pgs sz) (pgs new) := (show Monotone pgs from
    fun _ _ => pgs_mono).map_min
  funext v
  rw [hmin]
  rcases Nat.lt_or_ge v tfPage with htf | htf
  · by_cases hv : v < min (pgs sz) (pgs new)
    · have hsame : without t.map (pgs new) (pgs sz) v = t.map v := if_neg (by omega)
      rw [if_pos hv, pagesOf, pagesOf, hsame]
    · rw [if_neg hv]
      refine pagesOf_of_none ?_
      rw [without]
      split_ifs
      · rfl
      · exact hl.free v (by omega) htf
  · rw [pagesOf_of_le htf, pagesOf_of_le htf, ite_self]

section

variable (h : Good W m.mem 0 0) (hp : (m.mem.proc p).stage = .live) (hs : m.slot p = .live s)
  {bytes : ℕ}
include h hp hs

/-- Growing by a positive number of bytes, with all pages. -/
theorem growprocUp_users (hpos : 0 < bytes) (hlt : (m.mem.proc p).sz + bytes < 2 ^ 64) :
    Ends (growprocUp p bytes m) (fun ok m' => m'.short = false → m.short = false ∧
      if Vm.trapframe < s.sz + bytes then ok = false ∧ m'.users = m.users
      else ok = true ∧ m'.users = m.users.set p (.live { s with sz := s.sz + bytes }))
      fun _ => True := by
  obtain ⟨tf, t, -, ht, hl⟩ := h.space hp
  obtain ⟨F, hb, hF⟩ := exists_books h.inv ht
  cases (slot_live hp ht).symm.trans hs
  rw [growprocUp, get_bind, Nat.mod_eq_of_lt hlt]
  show Ends _ (fun ok m' => _ → _ ∧ if Vm.trapframe < (m.mem.proc p).sz + bytes then _ else _) _
  by_cases hbig : Vm.trapframe < (m.mem.proc p).sz + bytes
  · rw [if_pos hbig]
    intro hs
    rw [if_pos hbig]
    exact ⟨hs, rfl, rfl⟩
  rw [if_neg hbig]
  have halloc := Frames.uvmalloc_space (f := m.frames) hl (Nat.le_add_right _ bytes)
    (Nat.not_lt.mp hbig) hb
  rw [← Nat.mod_eq_of_lt hlt] at halloc
  refine Ends.bind (onTable_spec ht halloc) fun r m₁ hm₁ => ?_
  obtain ⟨f', t', rfl, hframe, hseen⟩ := hm₁
  rw [Nat.mod_eq_of_lt hlt] at hseen
  by_cases hr : r = 0
  · rw [if_pos hr]
    intro hs
    obtain ⟨-, hr', -⟩ := hseen hs
    omega
  · rw [if_neg hr]
    intro hs
    obtain ⟨hs₀, hr', hpages⟩ := hseen hs
    rw [if_neg hbig]
    refine ⟨hs₀, rfl, ?_⟩
    -- the size is written after the table
    have hmem : ((m.setSpace p f' t' (m.mem.proc p).sz).mem.setProc p
        { (m.setSpace p f' t' (m.mem.proc p).sz).mem.proc p with sz := r }) =
        (m.setSpace p f' t' r).mem := by
      rw [setSpace_self]
      exact setProc_setProc ({ m.mem with kmem := f'.kmem } : Mem n) p _ _
    have huser := users_setSpace f' t' r hp
      fun q hq t hq' x hx => hframe x (hF q hq t hq' x hx)
    refine (congrArg (fun s => users ⟨s, f'.data, f'.short, m.nextpid⟩) hmem).trans
      (huser.trans ?_)
    rw [Frames.space, show pagesOf f'.data t'.map = pagesOf m.frames.data t.map from hpages,
      show r = (m.mem.proc p).sz + bytes from hr']
    rfl

/-- Shrinking. -/
theorem growprocDown_users :
    Ends (onMem (Vm.growprocDown p bytes) m) (fun ok m' => m'.short = m.short ∧ ok = true ∧
      m'.users = m.users.set p (.live ⟨min s.sz ((s.sz + (2 ^ 64 - bytes)) % 2 ^ 64), fun v =>
        if v < pgs (min s.sz ((s.sz + (2 ^ 64 - bytes)) % 2 ^ 64)) then s.page v else fresh⟩))
      fun _ => True := by
  obtain ⟨tf, t, -, ht, hl⟩ := h.space hp
  cases (slot_live hp ht).symm.trans hs
  generalize hnew : (m.frames.space t (m.mem.proc p).sz).sz + (2 ^ 64 - bytes) = new
  have hdown : Ends (Vm.growprocDown p bytes m.mem) (fun ok s' => ok = true ∧ ∃ k t',
      s' = ({ m.mem with kmem := k } : Mem n).setProc p { m.mem.proc p with
        pagetable := some t', sz := min (m.mem.proc p).sz (new % 2 ^ 64) } ∧
      t'.map = without t.map (pgs (new % 2 ^ 64)) (pgs (m.mem.proc p).sz)) fun _ => True := by
    rw [Vm.growprocDown]
    refine Ends.bind (Vm.onTable_spec h.inv ht (Q := fun r m₁ =>
      r = min (m.mem.proc p).sz (new % 2 ^ 64) ∧
      m₁ = without t.map (pgs (new % 2 ^ 64)) (pgs (m.mem.proc p).sz)) fun F hF => ?_)
      fun r s₁ hs₁ => ?_
    · rw [← hnew]
      exact uvmdealloc_spec hl.size hF
    · obtain ⟨k, t', rfl, -, hr, hm⟩ := hs₁
      rw [update_setProc, hr]
      exact ⟨rfl, k, t', rfl, hm⟩
  refine (onMem_spec hdown).imp ?_
  rintro ok _ ⟨_, rfl, rfl, k, t', rfl, hmap⟩
  refine ⟨rfl, rfl, ?_⟩
  refine (users_setSpace ⟨k, m.data, m.short⟩ t' _ hp fun _ _ _ _ _ _ => rfl).trans ?_
  rw [Frames.space, hmap, pagesOf_without hl]
  rfl

/-- **`sys_sbrk` does the same to what the process sees, whether it allocates or not.** -/
theorem sysSbrk_users (k t : Int32) :
    Ends (sysSbrk p k t m) (fun x m' => m'.short = false → m.short = false ∧
      x = (s.sbrk k).1 ∧ m'.users = m.users.set p (.live (s.sbrk k).2)) fun _ => True := by
  have hsz : s.sz = (m.mem.proc p).sz := by
    obtain ⟨tf, t, -, ht, -⟩ := h.space hp
    cases (slot_live hp ht).symm.trans hs
    rfl
  have hlt := (h.space hp).add_lt k
  rw [sysSbrk, get_bind, Space.sbrk, ← hsz]
  by_cases hneg : k.toInt < 0
  · rw [if_pos (.inr hneg), if_pos hneg, growproc, if_neg (by omega), if_pos hneg]
    refine Ends.bind (growprocDown_users h hp hs) fun ok m' hm' hs' => ?_
    obtain ⟨hshort, rfl, husers⟩ := hm'
    exact ⟨hshort ▸ hs', rfl, husers⟩
  rw [if_neg hneg]
  by_cases heager : t = 1
  · rw [if_pos (.inl heager), growproc]
    by_cases hzero : k.toInt = 0
    · -- nothing to do
      rw [if_neg (by omega), if_neg hneg, hzero]
      intro hs'
      have hsmall : ¬ Vm.trapframe < s.sz + (0 : ℤ).toNat := by
        obtain ⟨tf, t, -, -, hl⟩ := h.space hp
        rw [hsz]
        exact Nat.not_lt.mpr hl.size
      rw [if_neg hsmall]
      exact ⟨hs', rfl, (users_set_self hs).symm⟩
    · rw [if_pos (by omega)]
      refine Ends.bind (growprocUp_users h hp hs (by omega) hlt) fun ok m' hm' hs' => ?_
      obtain ⟨hs₀, hm'⟩ := hm' hs'
      refine ⟨hs₀, ?_⟩
      by_cases hbig : Vm.trapframe < s.sz + k.toInt.toNat
      · rw [if_pos hbig] at hm' ⊢
        obtain ⟨rfl, husers⟩ := hm'
        exact ⟨rfl, husers.trans (users_set_self hs).symm⟩
      · rw [if_neg hbig] at hm' ⊢
        obtain ⟨rfl, husers⟩ := hm'
        exact ⟨rfl, husers⟩
  · have hlazy : ¬ (t = 1 ∨ k.toInt < 0) := by
      rintro (ht | hk)
      · exact heager ht
      · exact hneg hk
    rw [if_neg hlazy]
    have hsbrk : Vm.sysSbrk p k t m.mem = if Vm.trapframe < s.sz + k.toInt.toNat then
        .ok (false, m.mem) else .ok (true, m.mem.setProc p
          { m.mem.proc p with sz := s.sz + k.toInt.toNat }) := by
      rw [Vm.sysSbrk, if_neg hlazy, get_bind, hsz, Nat.mod_eq_of_lt hlt, if_neg (by omega)]
      split_ifs
      · rfl
      · rw [update_bind, Nat.mod_eq_of_lt hlt]
        rfl
    split_ifs at hsbrk ⊢ with hbig
    · have hrun : onMem (Vm.sysSbrk p k t) m = .ok (false, m) := by
        rw [onMem, zoom, hsbrk]
      rw [bind_of_ok hrun]
      exact fun hs' => ⟨hs', rfl, (users_set_self hs).symm⟩
    · have hrun : onMem (Vm.sysSbrk p k t) m = .ok (true, { m with
          mem := m.mem.setProc p { m.mem.proc p with sz := s.sz + k.toInt.toNat } }) := by
        rw [onMem, zoom, hsbrk]
      rw [bind_of_ok hrun]
      refine fun hs' => ⟨hs', rfl, ?_⟩
      obtain ⟨tf, tab, -, ht, -⟩ := h.space hp
      have huser := users_setSpace m.frames tab (s.sz + k.toInt.toNat) hp
        fun _ _ _ _ _ _ => rfl
      cases (slot_live hp ht).symm.trans hs
      rw [setSpace, ← ht] at huser
      exact huser

end

/-! ## Fork -/

theorem ends_trivial {σ ε β : Type} (r : Except ε (β × σ)) :
    Ends r (fun _ _ => True) fun _ => True := by
  cases r with
  | ok x => trivial
  | error e => trivial

/-- `allocproc` takes the first unused slot. -/
theorem allocproc_first (s : Mem n) : Ends (Vm.allocproc s) (fun o _ => ∀ q, o = some q →
      (List.finRange n).find? (fun p => (s.proc p).stage = .unused) = some q) fun _ => True := by
  rw [Vm.allocproc, get_bind]
  cases hq : (List.finRange n).find? fun p => (s.proc p).stage = .unused with
  | none =>
    rintro q ⟨⟩
  | some q =>
    have hfail : ∀ s' : Mem n, Ends (allocprocFail q s')
        (fun o _ => ∀ q', o = some q' → some q = some q') fun _ => True := by
      intro s'
      rw [allocprocFail]
      refine Ends.bind (ends_trivial _) fun _ _ _ => ?_
      rintro q' ⟨⟩
    show Ends (allocprocAt q s) _ _
    rw [allocprocAt, update_bind]
    refine Ends.bind (ends_trivial _) fun tf s₁ _ => ?_
    rw [update_bind]
    cases tf with
    | none => exact hfail _
    | some tf =>
      refine Ends.bind (ends_trivial _) fun t s₂ _ => ?_
      rw [update_bind]
      split_ifs
      · exact fun q' hq' => hq'
      · exact hfail _

/-- The child gets the files, its size and its place in the tree of processes. -/
theorem kforkRest_shape (p q : Fin n) (s : Mem n) :
    Ends (kforkRest p q s) (fun _ s' => ∃ file o, s' = ({ s with file := file } : Mem n).setProc q
      { s.proc q with ofile := o, sz := (s.proc p).sz, parent := some p, stage := .live })
      fun _ => True := by
  have hfiles : ∀ (fds : List (Fin nofile)) (s : Mem n), Ends (kforkFiles p q fds s)
      (fun _ s' => ∃ file o, s' = ({ s with file := file } : Mem n).setProc q
        { s.proc q with ofile := o }) fun _ => True := by
    intro fds
    induction fds with
    | nil => exact fun s => ⟨s.file, (s.proc q).ofile, (setProc_eq_self s q).symm⟩
    | cons fd fds ih =>
      intro s
      rw [kforkFiles, get_bind]
      cases (s.proc p).ofile fd with
      | none => exact ih s
      | some f =>
        dsimp only
        rw [filedup, ← bind_bind, get_bind]
        split_ifs
        · trivial
        · rw [modify_bind, update_bind]
          refine (ih _).imp ?_
          rintro _ s' ⟨file, o, rfl⟩
          refine ⟨file, o, ?_⟩
          rw [setProc_self]
          exact setProc_setProc ({ s with file := file } : Mem n) q _ _
  rw [kforkRest, get_bind, update_bind]
  refine Ends.bind (hfiles _ _) ?_
  rintro _ s' ⟨file, o, rfl⟩
  refine ⟨file, o, ?_⟩
  dsimp only
  rw [setProc_self, setProc_self]
  exact (setProc_setProc _ q _ _).trans (setProc_setProc ({ s with file := file } : Mem n) q _ _)

/-- `allocproc` fails only if there is no slot, or no memory. -/
theorem allocproc_users (h : Good W m.mem 0 0) : Ends (allocproc m) (fun o m' => m'.data = m.data ∧
      (o = none → m'.short = false → m.short = false ∧ m'.nextpid = m.nextpid ∧
        (List.finRange n).find? (fun p => (m.mem.proc p).stage = .unused) = none ∧
        m'.mem.proc = m.mem.proc) ∧
      ∀ q pid, o = some (q, pid) → pid = m.nextpid ∧ m'.nextpid = m.nextpid + 1 ∧
        m'.short = m.short ∧
        (List.finRange n).find? (fun p => (m.mem.proc p).stage = .unused) = some q ∧
        ∃ k tf t, m'.mem = ({ m.mem with kmem := k } : Mem n).setProc q
          ((m.mem.proc q).taken (some tf) (some t)) ∧ Layout t.map tf W.tramp 0 ∧
          Inv W m'.mem 0 0) fun _ => True := by
  rw [allocproc, get_bind]
  refine Ends.bind (onMem_spec ((allocproc_spec h).and
    (allocproc_first m.mem))) fun o m₁ hm₁ => ?_
  obtain ⟨s₁, rfl, halloc, hfirst⟩ := hm₁
  cases o with
  | none =>
    obtain ⟨k, rfl, -⟩ := halloc
    by_cases hany : ((List.finRange n).any fun q => (m.mem.proc q).stage = .unused) = true
    · rw [if_pos hany]
      refine ⟨rfl, fun _ hs => ?_, by rintro _ _ ⟨⟩⟩
      cases (Bool.or_true m.short).symm.trans hs
    · rw [if_neg hany]
      refine ⟨rfl, fun _ hs => ⟨hs, rfl, List.find?_eq_none.mpr fun q hq hst => ?_, rfl⟩,
        by rintro _ _ ⟨⟩⟩
      exact hany (List.any_eq_true.mpr ⟨q, hq, hst⟩)
  | some q =>
    have hq := hfirst q rfl
    have hany : ((List.finRange n).any fun q => (m.mem.proc q).stage = .unused) = true :=
      List.any_eq_true.mpr ⟨q, List.mem_finRange q, (List.find?_some hq :)⟩
    obtain ⟨-, k, tf, t, rfl, hl, hi⟩ := halloc
    rw [if_pos hany]
    refine ⟨rfl, by rintro ⟨⟩, ?_⟩
    rintro _ _ ⟨⟩
    exact ⟨rfl, rfl, Bool.or_false m.short, hq, k, tf, t, rfl, hl, hi⟩

/-- **A child sees what its parent sees.** -/
theorem kfork_users (h : Good W m.mem 0 0) (hp : (m.mem.proc p).stage = .live)
    (hs : m.slot p = .live s) : Ends (kfork p m) (fun x m' => m'.short = false → m.short = false ∧
      m.users.kfork s = (.value x, m'.users)) fun _ => True := by
  obtain ⟨ptf, old, -, hold, hlp⟩ := h.space hp
  cases (slot_live hp hold).symm.trans hs
  have hslot : (fun q => (m.users.slot q).isUnused) = fun q =>
      decide ((m.mem.proc q).stage = .unused) := funext fun q => slot_isUnused m q
  rw [kfork, Users.kfork, hslot]
  refine Ends.bind (allocproc_users h) fun o m₁ hm₁ => ?_
  obtain ⟨hdata, hnone, hsome⟩ := hm₁
  cases o with
  | none =>
    intro hs'
    obtain ⟨hs₀, hpid, hfind, hproc⟩ := hnone rfl hs'
    rw [hfind]
    refine ⟨hs₀, congrArg (Prod.mk _) (Users.ext (funext fun q => ?_) hpid.symm)⟩
    exact (slot_congr_proc (by rw [hproc]) fun _ _ _ _ => by rw [hdata]).symm
  | some x =>
    obtain ⟨q, pid⟩ := x
    obtain ⟨rfl, hpid, hshort, hfind, k, tf, t, hmem, hl, hi⟩ := hsome q pid rfl
    have hq : (m.mem.proc q).stage = .unused := of_decide_eq_true (List.find?_some hfind :)
    have hpq : p ≠ q := by
      rintro rfl
      rw [hq] at hp
      cases hp
    have hproc : ∀ r ≠ q, m₁.mem.proc r = m.mem.proc r := fun r hr => by
      rw [hmem, setProc_of_ne _ hr]
    have hprocq : m₁.mem.proc q = (m.mem.proc q).taken (some tf) (some t) := by
      rw [hmem, setProc_self]
    have htab : (m₁.mem.proc q).pagetable = some t := by rw [hprocq]; rfl
    obtain ⟨F, hb, hF⟩ := exists_books hi htab
    have hcopy := Frames.uvmcopy_space (f := m₁.frames) hlp
      (hF p hpq old (by rw [hproc p hpq, hold])) (fun u hu => hl.free u (Nat.zero_le u) hu) hb
    have hfork : Ends (kforkCopy p q m₁) (fun ok m₂ => ∃ f' t',
        m₂ = m₁.setSpace q f' t' (m₁.mem.proc q).sz ∧ (∀ y ∈ F, f'.data y = m₁.data y) ∧
        (f'.short = false → m₁.short = false ∧ ok = true ∧
          pagesOf f'.data t'.map = pagesOf m₁.data old.map)) fun _ => True := by
      rw [kforkCopy, get_bind, hproc p hpq, hold]
      exact onTable_spec (c := fun new _ => Frames.uvmcopy old new (m.mem.proc p).sz) htab hcopy
    refine Ends.bind hfork ?_
    rintro ok _ ⟨f', t', rfl, hframe, hseen⟩
    cases ok with
    | false =>
      refine Ends.bind (onMem_spec (ends_trivial _)) ?_
      rintro _ _ ⟨s', rfl, -⟩ hs'
      cases (hseen hs').2.1
    | true =>
      refine Ends.bind (onMem_spec (kforkRest_shape p q _)) ?_
      rintro _ _ ⟨s', rfl, file, o, rfl⟩ hs'
      obtain ⟨hs₁, -, hpages⟩ := hseen hs'
      rw [hfind]
      rw [hdata] at hframe hpages
      -- the state in the end, slot by slot
      generalize hlast : (({ (m₁.setSpace q f' t' (m₁.mem.proc q).sz).mem with file := file } :
        Mem n).setProc q _) = last
      have hother : ∀ r ≠ q, last.proc r = m.mem.proc r := fun r hr => by
        rw [← hlast, setProc_of_ne _ hr, ← hproc r hr]
        exact setSpace_of_ne hr
      have hself : (last.proc q).stage = .live ∧ (last.proc q).sz = (m.mem.proc p).sz ∧
          (last.proc q).pagetable = some t' := by
        rw [← hlast, setProc_self, setSpace_of_ne hpq, setSpace_self, hproc p hpq]
        exact ⟨rfl, rfl, rfl⟩
      refine ⟨hshort ▸ hs₁, congrArg (Prod.mk _) (Users.ext (funext fun r => ?_) hpid.symm)⟩
      by_cases hr : r = q
      · subst hr
        refine (Users.set_self ..).trans ((slot_live hself.1 hself.2.2).trans ?_).symm
        rw [hself.2.1]
        exact congrArg (fun x => Slot.live ⟨_, x⟩) hpages
      · refine (Users.set_of_ne _ _ hr).trans
          (slot_congr_proc (hother r hr) fun tr htr x hx => ?_).symm
        exact hframe x (hF r hr tr (by rw [hproc r hr, htr]) x hx)

/-! ## Sequences of operations -/

/-- After an access that was allowed or not. -/
theorem store_of_false {va : ℕ} {b : UInt8} (h : (s.store va b).1 = false) :
    (s.store va b).2 = s := by
  rw [Space.store] at h ⊢
  by_cases hw : ((s.user (va / pgsize)).any fun x => x.1.w) = true
  · rw [if_pos hw] at h
    cases h
  · rw [if_neg hw]

/-- An operation that does `A` to the address space of the process, and then `k`. -/
theorem access_step {P : Prop} {op : Op} {k : α → UM n Out}
    {K : α → Machine n → Prop} (h : Good W m.mem 0 0) (hp : (m.mem.proc p).stage = .live)
    (hP : m.reaches (p, op) = true → P) (hc : ∀ t tf F, Layout t.map tf W.tramp (m.mem.proc p).sz →
      Books W m.frames.kmem (t.pages + F) → Ends (c t (m.mem.proc p).sz m.frames) (fun r f' =>
        Frames.Did W tf (m.mem.proc p).sz F m.frames f' r.2
          (P → A (m.frames.space t (m.mem.proc p).sz) = (r.1, f'.space r.2 (m.mem.proc p).sz)))
        fun _ => True) (hK : Ends (onTable p c m) K fun _ => True)
    (hk : ∀ s a m₁, m.slot p = .live s → K a m₁ → Ends (k a m₁) (fun r m' =>
      m'.short = m₁.short ∧ (a = (A s).1 → m₁.users = m.users.set p (.live (A s).2) →
        m.users.act init p s op = (r, m'.users))) fun _ => True) :
    Ends ((onTable p c >>= k) m) (fun r m' => m'.short = false → m.short = false ∧
      (((m.mem.proc p).stage = .live → m.reaches (p, op) = true) →
        m.users.step init (p, op) = (r, m'.users))) fun _ => True := by
  obtain ⟨s, hs, hacc⟩ := access_users h hp hc
  have hstep : m.users.step init (p, op) = m.users.act init p s op := by
    rw [Users.step, show m.users.slot p = .live s from hs]
  rw [hstep]
  refine Ends.bind (hacc.and hK) fun a m₁ hm₁ => (hk s a m₁ hs hm₁.2).imp fun r m' hm' hs' => ?_
  obtain ⟨hs₀, hseen⟩ := hm₁.1 (hm'.1 ▸ hs')
  refine ⟨hs₀, fun hreach => ?_⟩
  obtain ⟨ha, husers⟩ := hseen (hP (hreach hp))
  exact hm'.2 ha husers

/-- **What an operation does to what processes see.** -/
theorem step_users (init : Fin n) (x : Fin n × Op) (h : Good W m.mem 0 0) :
    Ends (step init x m) (fun r m' => m'.short = false → m.short = false ∧
      (((m.mem.proc x.1).stage = .live → m.reaches x = true) →
        m.users.step init x = (r, m'.users))) fun _ => True := by
  obtain ⟨p, op⟩ := x
  rw [step, get_bind]
  by_cases hp : (m.mem.proc p).stage = .live
  swap
  · rw [if_neg hp, Users.step]
    refine fun hs => ⟨hs, fun _ => ?_⟩
    cases hslot : m.users.slot p with
    | live s => exact absurd hslot (slot_of_not_live hp s)
    | unused => rfl
    | gone => rfl
  rw [if_pos hp]
  cases op with
  | load va =>
    refine access_step (A := fun s => s.load va) h hp of_decide_eq_true
      (fun t tf F hl hb => Frames.load_space hl hb)
      (access_good h hp (fun t sz => Frames.load_refines m.frames t sz va) fun _ _ _ _ =>
        touch_spec) fun s a m₁ hs hg => ?_
    cases a with
    | none =>
      refine (exits_users hg.1).imp fun r m' hm' => ⟨hm'.1, fun ha husers => ?_⟩
      rw [← hm'.2, husers, Users.act, ← ha]
      exact congrArg (Users.exits init p) (users_set_self hs).symm
    | some b =>
      refine ⟨rfl, fun ha husers => ?_⟩
      rw [husers, Users.act, ← ha]
      exact congrArg (Prod.mk _) (users_set_self hs).symm
  | store va b =>
    refine access_step (A := fun s => s.store va b) h hp of_decide_eq_true
      (fun t tf F hl hb => Frames.store_space hl hb)
      (access_good (g := id) h hp (fun t sz => Frames.store_refines m.frames t sz va b)
        fun _ _ _ _ => touch_spec) fun s ok m₁ hs hg => ?_
    cases ok with
    | false =>
      refine (exits_users hg.1).imp fun r m' hm' => ⟨hm'.1, fun ha husers => ?_⟩
      rw [← hm'.2, husers, store_of_false ha.symm, users_set_self hs, Users.act, ← ha]
      exact if_neg Bool.false_ne_true
    | true =>
      refine ⟨rfl, fun ha husers => ?_⟩
      rw [husers, Users.act, ← ha]
      exact if_pos rfl
  | copyin srcva len =>
    refine access_step (A := fun s => (s.copyinFrom len [] srcva len, s)) h hp (fun _ => trivial)
      (fun t tf F hl hb => (Frames.copyinFrom_space hl hb len).imp fun r f' hd =>
        hd.imp fun hP _ => Prod.ext hP.2 hP.1.symm) (ends_trivial _)
      fun s a m₁ hs _ => ⟨rfl, fun ha husers => ?_⟩
    rw [husers, ha]
    exact congrArg (Prod.mk _) (users_set_self hs).symm
  | copyout dstva src =>
    refine access_step (A := fun s => s.copyoutFrom src.length dstva src) h hp (fun _ => trivial)
      (fun t tf F hl hb => (Frames.copyoutFrom_space hl hb _).imp fun r f' hd =>
        hd.imp fun hP _ => hP) (ends_trivial _) fun s a m₁ hs _ => ⟨rfl, fun ha husers => ?_⟩
    rw [husers, ha]
    rfl
  | copyinstr srcva max =>
    refine access_step (A := fun s => (s.copyinstrFrom max [] srcva max, s)) h hp
      (fun _ => trivial) (fun t tf F hl hb => (Frames.copyinstrFrom_space hl hb max).imp
        fun r f' hd => hd.imp fun hP _ => Prod.ext hP.2 hP.1.symm) (ends_trivial _)
      fun s a m₁ hs _ => ⟨rfl, fun ha husers => ?_⟩
    rw [husers, ha]
    exact congrArg (Prod.mk _) (users_set_self hs).symm
  | sysSbrk k t =>
    obtain ⟨tf, tab, -, ht, -⟩ := h.space hp
    have hs := slot_live hp ht
    rw [Users.step, show m.users.slot p = _ from hs]
    refine Ends.bind (sysSbrk_users h hp hs k t) fun x m₁ hseen hs' => ⟨(hseen hs').1, fun _ => ?_⟩
    obtain ⟨-, rfl, husers⟩ := hseen hs'
    rw [husers]
    rfl
  | kfork =>
    obtain ⟨tf, tab, -, ht, -⟩ := h.space hp
    have hs := slot_live hp ht
    rw [Users.step, show m.users.slot p = _ from hs]
    refine Ends.bind (kfork_users h hp hs) fun x m₁ hseen hs' => ⟨(hseen hs').1, fun _ => ?_⟩
    exact (hseen hs').2

/-- The same operation, up to whether `sys_sbrk` allocates. -/
def Op.Same (x y : Op) : Prop :=
  x = y ∨ ∃ k t t', 0 ≤ k.toInt ∧ x = .sysSbrk k t ∧ y = .sysSbrk k t'

/-- Operations that are the same up to this do the same to what processes see. -/
theorem Op.Same.step_eq {x y : Op} (h : x.Same y) (init p : Fin n) (u : Users n) :
    u.step init (p, x) = u.step init (p, y) := by
  rcases h with rfl | ⟨k, t, t', -, rfl, rfl⟩
  · rfl
  · rfl

/-- Only loads and stores must be below the size. -/
theorem Op.Same.reaches_eq {x y : Op} (h : x.Same y) (p : Fin n) (m m' : Machine n)
    (hsz : (m'.mem.proc p).sz = (m.mem.proc p).sz) : m'.reaches (p, y) = m.reaches (p, x) := by
  rcases h with rfl | ⟨k, t, t', -, rfl, rfl⟩
  · cases x with
    | load va => exact congrArg (fun sz => decide (va < sz)) hsz
    | store va b => exact congrArg (fun sz => decide (va < sz)) hsz
    | _ => rfl
  · rfl

/-- Machines on which processes see the same have the same living processes, with the same sizes. -/
theorem users_eq_live (h : m.users = m'.users) (hp : (m'.mem.proc p).stage = .live) :
    (m.mem.proc p).stage = .live ∧ (m'.mem.proc p).sz = (m.mem.proc p).sz := by
  have hslot : m.slot p = m'.slot p := congrFun (congrArg Users.slot h) p
  rw [slot, slot, hp] at hslot
  cases hst : (m.mem.proc p).stage with
  | live =>
    rw [hst] at hslot
    exact ⟨rfl, (congrArg Space.sz (Slot.live.inj hslot)).symm⟩
  | _ =>
    rw [hst] at hslot
    cases hslot

/-- An operation, with all that is known of it. -/
theorem step_ok (init : Fin n) (x : Fin n × Op) (h : Good W m.mem 0 0) :
    ∃ r m', step init x m = .ok (r, m') ∧ Good W m'.mem 0 0 ∧ (m'.short = false →
      m.short = false ∧ (((m.mem.proc x.1).stage = .live → m.reaches x = true) →
        m.users.step init x = (r, m'.users))) :=
  ((step_good init x h).and (step_users init x h)).exists_ok

/-- No run panics, and an allocation that has failed is not forgotten. -/
theorem run_ok (init : Fin n) (xs : List (Fin n × Op)) (h : Good W m.mem 0 0) :
    ∃ rs m', run init xs m = .ok (rs, m') ∧ (m'.short = false → m.short = false) := by
  induction xs generalizing m with
  | nil => exact ⟨[], m, rfl, id⟩
  | cons x xs ih =>
    obtain ⟨r, m₁, hstep, hg, hseen⟩ := step_ok init x h
    rw [run, bind_of_ok hstep]
    by_cases hr : r = .initExiting
    · rw [if_pos hr]
      exact ⟨[r], m₁, rfl, fun hs => (hseen hs).1⟩
    · obtain ⟨rs, m', hrun, hmono⟩ := ih hg
      rw [if_neg hr, bind_of_ok hrun]
      exact ⟨r :: rs, m', rfl, fun hs => (hseen (hmono hs)).1⟩

/-- An allocation that has failed in the first operation of a run is not forgotten. -/
theorem short_of_run {x : Fin n × Op} {xs : List (Fin n × Op)} {r : Out} {rs : List Out}
    {m₁ m₂ : Machine n} (hstep : step init x m = .ok (r, m₁)) (hg : Good W m₁.mem 0 0)
    (hr : run init (x :: xs) m = .ok (rs, m₂)) (hs : m₂.short = false) : m₁.short = false := by
  obtain ⟨qs, q, hrun, hmono⟩ := run_ok init xs hg
  rw [run, bind_of_ok hstep] at hr
  by_cases hstop : r = .initExiting
  · rw [if_pos hstop] at hr
    cases hr
    exact hs
  · rw [if_neg hstop, bind_of_ok hrun] at hr
    cases hr
    exact hmono hs

/-- Two runs on machines on which processes see the same. -/
theorem run_users (init : Fin n) {xs ys : List (Fin n × Op)}
    (hsame : List.Forall₂ (fun x y => x.1 = y.1 ∧ x.2.Same y.2) xs ys) (h : Good W m.mem 0 0)
    (h' : Good W m'.mem 0 0) (hu : m.users = m'.users) (hrange : inRange init xs m = true)
    {rs rs' : List Out} {m₁ m₂ : Machine n} (hr : run init xs m = .ok (rs, m₁))
    (hr' : run init ys m' = .ok (rs', m₂)) (hs : m₁.short = false) (hs' : m₂.short = false) :
    rs = rs' := by
  induction hsame generalizing m m' rs rs' with
  | nil =>
    cases hr
    cases hr'
    rfl
  | @cons x y xs ys hxy hsame ih =>
    obtain ⟨r, m₁', hstep, hg, hseen⟩ := step_ok init x h
    obtain ⟨r', m₂', hstep', hg', hseen'⟩ := step_ok init y h'
    have hshort := short_of_run hstep hg hr hs
    have hshort' := short_of_run hstep' hg' hr' hs'
    obtain ⟨p, op⟩ := x
    obtain ⟨_, op'⟩ := y
    obtain ⟨rfl, hop⟩ := hxy
    rw [run, bind_of_ok hstep] at hr
    rw [run, bind_of_ok hstep'] at hr'
    rw [inRange, hstep, Bool.and_eq_true, Bool.or_eq_true, Bool.or_eq_true] at hrange
    obtain ⟨hreach, hnext⟩ := hrange
    have hreach₁ : (m.mem.proc p).stage = .live → m.reaches (p, op) = true := by
      intro hp
      rcases hreach with hdead | hreach
      · exact absurd hp (of_decide_eq_true hdead)
      · exact hreach
    have hreach₂ : (m'.mem.proc p).stage = .live → m'.reaches (p, op') = true := by
      intro hp
      obtain ⟨hp₁, hsz⟩ := users_eq_live hu hp
      rw [hop.reaches_eq p m m' hsz]
      exact hreach₁ hp₁
    -- neither run has failed to allocate up to here, so both have done the same
    have he := (hseen hshort).2 hreach₁
    rw [hop.step_eq, hu, (hseen' hshort').2 hreach₂] at he
    obtain ⟨rfl, hu'⟩ := Prod.mk.inj he.symm
    obtain ⟨qs, q₁, hrun, -⟩ := run_ok init xs hg
    obtain ⟨qs', q₂, hrun', -⟩ := run_ok init ys hg'
    by_cases hstop : r = .initExiting
    · rw [if_pos hstop] at hr hr'
      cases hr
      cases hr'
      rfl
    · rw [if_neg hstop, bind_of_ok hrun] at hr
      rw [if_neg hstop, bind_of_ok hrun'] at hr'
      cases hr
      cases hr'
      have hrange' : inRange init xs m₁' = true := by
        rcases hnext with hstop' | hnext
        · exact absurd (of_decide_eq_true hstop') hstop
        · exact hnext
      rw [ih hg hg' hu' hrange' hrun hrun']

/-- **Lazy and eager growth.** In two runs from the same state, which any operations have led to
since the first process was made, and which differ only in how `sys_sbrk` grows memory, all
operations have the same outcomes: the bytes that are loaded and copied, the values of system calls,
success and failure, and who is killed. All loads and stores are below the size of the process, and
no allocation fails in either run. -/
theorem lazy_eager {s₀ s₁ : Mem n} (hboot : Boot s₀)
    (hfew : s₀.kmem.hi - s₀.kmem.lo < maxva / pgsize)
    (hinit : userinit s₀ = .ok (some init, s₁)) (zs : List (Fin n × Vm.Op)) (m : Machine n)
    (hm : Vm.run init zs s₁ = .ok ((), m.mem)) (xs ys : List (Fin n × Op))
    (hsame : List.Forall₂ (fun x y => x.1 = y.1 ∧ x.2.Same y.2) xs ys)
    (hrange : inRange init xs m = true) :
    ∃ rs m₁ rs' m₂, run init xs m = .ok (rs, m₁) ∧ run init ys m = .ok (rs', m₂) ∧
      (m₁.short = false → m₂.short = false → rs = rs') := by
  have hgood : Good (hboot.ram hfew) s₁ 0 0 := (userinit_spec (hboot.good hfew)).ok hinit
  have hgood : Good (hboot.ram hfew) m.mem 0 0 :=
    (run_spec init zs hgood rfl).ok hm
  obtain ⟨rs, m₁, hr, -⟩ := run_ok init xs hgood
  obtain ⟨rs', m₂, hr', -⟩ := run_ok init ys hgood
  exact ⟨rs, m₁, rs', m₂, hr, hr', run_users init hsame hgood hgood rfl hrange hr hr'⟩

/-- A machine with twenty free pages. -/
def twentyPages : Mem 2 where
  kmem := ⟨kernbase / pgsize, phystop / pgsize, kernbase / pgsize,
    (List.range 20).map (kernbase / pgsize + 1 + ·), [], [], true⟩
  proc _ := ⟨.unused, none, none, 0, none, fun _ => none⟩
  file _ := ⟨0, .none⟩
  pipes := []

theorem boot_twentyPages : Boot twentyPages where
  proc _ := rfl
  file _ := rfl
  pipes := rfl
  used := rfl
  clean := rfl
  nodup := by decide
  range := by decide

/-- A process grows by two pages and forks; the child reads a byte that its parent has written, and
one of the page that its parent has not touched. -/
def growAndFork (t : Int32) : List (Fin 2 × Op) :=
  [(0, .sysSbrk 4097 t), (0, .store 5 7), (0, .kfork), (1, .load 5), (1, .load 4096)]

/-- Growing lazily and eagerly with twenty pages, which are enough. -/
theorem lazy_eager_twentyPages : ∃ s₁ : Mem 2, userinit twentyPages = .ok (some 0, s₁) ∧
    inRange 0 (growAndFork 2) ⟨s₁, fun _ => .fill 0, false, 1⟩ = true ∧
    ∃ rs m₁ rs' m₂, run 0 (growAndFork 2) ⟨s₁, fun _ => .fill 0, false, 1⟩ = .ok (rs, m₁) ∧
      run 0 (growAndFork 1) ⟨s₁, fun _ => .fill 0, false, 1⟩ = .ok (rs', m₂) ∧
      m₁.short = false ∧ m₂.short = false ∧ rs = rs' ∧
      rs = [.value (some 0), .stored, .value (some 1), .byte 7, .byte 0] := by
  have hrun : (userinit twentyPages).toOption.any (fun r => r.1 = some 0 &&
      (inRange 0 (growAndFork 2) ⟨r.2, fun _ => .fill 0, false, 1⟩ &&
        ((run 0 (growAndFork 2) ⟨r.2, fun _ => .fill 0, false, 1⟩).toOption.any (fun x =>
          !x.2.short && x.1 = [.value (some 0), .stored, .value (some 1), .byte 7, .byte 0]) &&
        (run 0 (growAndFork 1) ⟨r.2, fun _ => .fill 0, false, 1⟩).toOption.any fun x =>
          !x.2.short))) = true := by
    decide +kernel
  obtain ⟨⟨o, s₁⟩, hinit, hrun⟩ := exists_of_toOption_any hrun
  rw [Bool.and_eq_true, Bool.and_eq_true, Bool.and_eq_true] at hrun
  obtain ⟨ho, hrange, hlazy, heager⟩ := hrun
  obtain rfl : o = some 0 := of_decide_eq_true ho
  obtain ⟨⟨rs, m₁⟩, hr, hlazy⟩ := exists_of_toOption_any hlazy
  obtain ⟨⟨rs', m₂⟩, hr', heager⟩ := exists_of_toOption_any heager
  rw [Bool.and_eq_true, Bool.not_eq_true'] at hlazy
  rw [Bool.not_eq_true'] at heager
  have hsame : List.Forall₂ (fun x y : Fin 2 × Op => x.1 = y.1 ∧ x.2.Same y.2) (growAndFork 2)
      (growAndFork 1) := by
    refine .cons ⟨rfl, .inr ⟨4097, 2, 1, by decide, rfl, rfl⟩⟩ ?_
    exact List.forall₂_same.mpr fun x _ => ⟨rfl, .inl rfl⟩
  obtain ⟨qs, q₁, qs', q₂, hq, hq', heq⟩ := lazy_eager boot_twentyPages (by decide) hinit []
    ⟨s₁, fun _ => .fill 0, false, 1⟩ rfl _ _ hsame hrange
  cases hr.symm.trans hq
  cases hr'.symm.trans hq'
  exact ⟨s₁, hinit, hrange, rs, m₁, rs', m₂, hr, hr', hlazy.1, heager, heq hlazy.1 heager,
    of_decide_eq_true hlazy.2⟩

end Machine

end Vm

end TrinityXv6
