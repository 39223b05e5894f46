import TrinityXv6.Vm.FileSpec

/-!
# What the calls do to memory

Between calls every page is accounted for, the file table agrees with descriptors and pipes, and
every process that has not been freed has an address space with the layout of
`TrinityXv6.Vm.ExecSpec`. Each call keeps this. A call that fails has given back what it has taken;
only the page table of the caller may have grown, and pages of the caller that were missing may have
been mapped on demand.
-/

namespace TrinityXv6

namespace Vm

open Command
open Function (update_self update_of_ne update_eq_self update_idem)

variable {n : ℕ} {α : Type} {W : Ram} {s s' s'' : Mem n} {hand : Fin nfile → ℤ} {H : Multiset ℕ}
  {E : Panic → Prop} {p q : Fin n}

/-- The process has an address space. -/
def HasSpace (W : Ram) (v : Proc n) : Prop :=
  ∃ tf t, v.trapframe = some tf ∧ v.pagetable = some t ∧ Layout t.map tf W.tramp v.sz

/-- A slot of the process table between calls. -/
structure ProcOk (W : Ram) (v : Proc n) : Prop where
  used : v.stage ≠ .used
  blank : v.stage = .unused → v.trapframe = none ∧ v.pagetable = none ∧ v.sz = 0
  space : v.stage = .live ∨ v.stage = .zombie → HasSpace W v
  files : v.stage = .unused ∨ v.stage = .zombie → ∀ fd, v.ofile fd = none

/-- What holds between calls, and, up to `hand` and `H`, also at some points within them. -/
structure Good (W : Ram) (s : Mem n) (hand : Fin nfile → ℤ) (H : Multiset ℕ) : Prop where
  inv : Inv W s hand H
  procs : ∀ p, ProcOk W (s.proc p)

/-- A process that is alive has an address space. -/
theorem Good.space (h : Good W s hand H) (hp : (s.proc p).stage = .live) : HasSpace W (s.proc p) :=
  (h.procs p).space (.inl hp)

/-- What has changed when process `p` has only had its page table grow and pages of its own mapped
on demand. -/
structure Back (p : Fin n) (s s' : Mem n) : Prop where
  others : ∀ q, q ≠ p → s'.proc q = s.proc q
  pipes : s'.pipes = s.pipes
  self : ∃ t t', (s.proc p).pagetable = some t ∧
    s'.proc p = { s.proc p with pagetable := some t' } ∧
    Extends (pgs (s.proc p).sz) t.map t'.map

theorem Back.of_proc (hp : HasSpace W (s.proc p)) (hproc : s'.proc = s.proc)
    (hpipes : s'.pipes = s.pipes) : Back p s s' := by
  obtain ⟨tf, t, -, ht, -⟩ := hp
  refine ⟨fun q _ => by rw [hproc], hpipes, t, t, ht, ?_, .refl _ _⟩
  rw [hproc, ← ht]

theorem Good.back (h : Good W s hand H) (hp : (s.proc p).stage = .live) : Back p s s :=
  .of_proc (h.space hp) rfl rfl

theorem Back.trans (h : Back p s s') (h' : Back p s' s'') : Back p s s'' := by
  obtain ⟨t, t₁, ht, hp, he⟩ := h.self
  obtain ⟨t₁', t₂, ht', hp', he'⟩ := h'.self
  rw [hp] at ht' hp' he'
  obtain rfl : t₁ = t₁' := Option.some.inj ht'
  exact ⟨fun q hq => (h'.others q hq).trans (h.others q hq), h'.pipes.trans h.pipes, t, t₂, ht, hp',
    he.trans he'⟩

theorem Back.stage (h : Back p s s') : (s'.proc p).stage = (s.proc p).stage := by
  obtain ⟨t, t', -, hp, -⟩ := h.self
  rw [hp]

/-- The whole state, if the files have not changed either. -/
theorem Back.state (h : Back p s s') (hf : s'.file = s.file) :
    ∃ t t', (s.proc p).pagetable = some t ∧
      s' = ({ s with kmem := s'.kmem } : Mem n).setProc p { s.proc p with pagetable := some t' } ∧
      Extends (pgs (s.proc p).sz) t.map t'.map := by
  obtain ⟨t, t', ht, hp, he⟩ := h.self
  refine ⟨t, t', ht, ?_, he⟩
  have hproc : s'.proc = Function.update s.proc p { s.proc p with pagetable := some t' } := by
    funext q
    by_cases hq : q = p
    · rw [hq, update_self, hp]
    · rw [update_of_ne hq, h.others q hq]
  rw [Mem.setProc, ← hproc, ← hf, ← h.pipes]

variable {f : Fin nfile} {k : Kmem} {F : Multiset ℕ} {v : Proc n} {fd : Fin nofile}

/-- One process changes. -/
theorem Good.setProc (h : ∀ q, ProcOk W (s.proc q)) (hv : ProcOk W v)
    (hi : Inv W (s.setProc p v) hand H) : Good W (s.setProc p v) hand H := by
  refine ⟨hi, fun q => ?_⟩
  by_cases hq : q = p
  · rw [hq, setProc_self]
    exact hv
  · rw [setProc_of_ne v hq]
    exact h q

theorem update_bind {β : Type} (p : Fin n) (f : Proc n → Proc n) (c : Unit → MM n β) (s : Mem n) :
    (update p f >>= c) s = c () (s.setProc p (f (s.proc p))) := rfl

@[simp] theorem setProc_setProc (s : Mem n) (p : Fin n) (v w : Proc n) :
    (s.setProc p v).setProc p w = s.setProc p w := by
  rw [Mem.setProc, Mem.setProc, Mem.setProc, update_idem]

theorem setProc_eq_self (s : Mem n) (p : Fin n) : s.setProc p (s.proc p) = s := by
  rw [Mem.setProc, update_eq_self]

theorem update_setProc {β : Type} (p : Fin n) (f : Proc n → Proc n) (c : Unit → MM n β) (s : Mem n)
    (v : Proc n) : (update p f >>= c) (s.setProc p v) = c () (s.setProc p (f v)) := by
  rw [update_bind, setProc_self, setProc_setProc]

theorem Inv.setProc_again {v w : Proc n} (h : Inv W (s.setProc p v) hand H)
    (hpages : w.pages = v.pages) (ho : w.ofile = v.ofile) : Inv W (s.setProc p w) hand H := by
  rw [← setProc_setProc s p v]
  refine h.setProc_same ?_ ?_
  · rw [setProc_self, hpages]
  · rw [setProc_self, ho]

/-! ## Access to the memory of the caller -/

/-- Code that only maps missing pages of the process. -/
theorem access_spec {c : Table → ℕ → VM (α × Table)} (h : Good W s hand H)
    (hp : (s.proc p).stage = .live) (hc : ∀ t sz k F, sz ≤ Vm.trapframe → Books W k (t.pages + F) →
      Ends (c t sz k) (Demanded W F sz t) E) :
    Ends (onTable p c s) (fun _ s' => Good W s' hand H ∧ Back p s s' ∧ s'.file = s.file) E := by
  obtain ⟨tf, t, htf, ht, hl⟩ := h.space hp
  refine (onTable_spec (Q := fun _ m => Extends (pgs (s.proc p).sz) t.map m) h.inv ht
    fun F hF => hc t _ _ F hl.size hF).imp fun _ s' hs' => ?_
  obtain ⟨k, t', rfl, hi, he⟩ := hs'
  refine ⟨.setProc h.procs ?_ hi, ⟨fun q hq => ?_, rfl, t, t', ht,
    setProc_self _ _, he⟩, rfl⟩
  · refine ⟨(h.procs p).used, fun hs => ?_, fun _ => ⟨tf, t', htf, rfl, hl.extend he⟩,
      (h.procs p).files⟩
    rw [show (s.proc p).stage = .unused from hs] at hp
    cases hp
  · exact setProc_of_ne _ hq

/-! ## Creating and freeing processes -/

/-- A process without address space. -/
def Proc.blank (v : Proc n) : Proc n :=
  { v with trapframe := none, pagetable := none, sz := 0, stage := .unused }

theorem kfreePtr_spec (x : Option ℕ) (h : Books W k (x.elim 0 (fun x => {x}) + F)) :
    Ends (kfreePtr x k) (fun _ k' => Books W k' F) E := by
  cases x with
  | none => exact h.of_eq (zero_add F)
  | some x => exact kfree_spec h

theorem freePtr_spec {sz : ℕ} (t : Option Table)
    (hl : ∀ t', t = some t' → ∃ tf, Layout t'.map tf W.tramp sz)
    (h : Books W k (t.elim 0 Table.pages + F)) :
    Ends (freePtr t sz k) (fun _ k' => Books W k' F) E := by
  cases t with
  | none => exact h.of_eq (zero_add F)
  | some t =>
    obtain ⟨tf, hl⟩ := hl t rfl
    exact procFreepagetable_spec hl h

/-- `freeproc` gives back all pages of a process. -/
theorem freeproc_spec (h : Inv W s hand H)
    (hl : ∀ t, (s.proc p).pagetable = some t → ∃ tf, Layout t.map tf W.tramp (s.proc p).sz) :
    Ends (freeproc p s) (fun _ s' => Inv W s' hand H ∧ ∃ k,
      s' = ({ s with kmem := k } : Mem n).setProc p (s.proc p).blank) E := by
  obtain ⟨rest, hrest, hput⟩ := pages_split s p
  have hbook : Books W s.kmem ((s.proc p).trapframe.elim 0 (fun x => {x}) +
      ((s.proc p).pagetable.elim 0 Table.pages + (rest + H))) := by
    refine h.books.of_eq ?_
    rw [hrest, Proc.pages]
    abel
  rw [freeproc, get_bind]
  refine Ends.bind (onKmem_spec (kfreePtr_spec _ hbook)) fun _ s₁ hs₁ => ?_
  obtain ⟨k₁, rfl, hk₁⟩ := hs₁
  refine Ends.bind (onKmem_spec (freePtr_spec _ hl hk₁))
    fun _ s₂ hs₂ => ?_
  obtain ⟨k₂, rfl, hk₂⟩ := hs₂
  refine ⟨h.replace rfl (hk₂.of_eq ?_), k₂, rfl⟩
  rw [hput]
  exact congrArg (· + H) (zero_add rest).symm

/-- An unused slot is blank. -/
theorem ProcOk.blank_eq (h : ProcOk W v) (hs : v.stage = .unused) : v.blank = v := by
  obtain ⟨htf, ht, hsz⟩ := h.blank hs
  unfold Proc.blank
  rw [← htf, ← ht, ← hsz, ← hs]

/-- A slot that `allocproc` has taken. -/
def Proc.taken (v : Proc n) (tf : Option ℕ) (t : Option Table) : Proc n :=
  { v with stage := .used, trapframe := tf, pagetable := t }

/-- `freeproc` of a slot that `allocproc` has taken. -/
theorem freeproc_taken {tf : Option ℕ} {t : Option Table} (hv : ProcOk W (s.proc p))
    (hs : (s.proc p).stage = .unused)
    (h : Inv W (({ s with kmem := k } : Mem n).setProc p ((s.proc p).taken tf t)) hand H)
    (hl : ∀ t', t = some t' → ∃ tf, Layout t'.map tf W.tramp 0) :
    Ends (freeproc p (({ s with kmem := k } : Mem n).setProc p ((s.proc p).taken tf t)))
      (fun _ s' => ∃ k, s' = { s with kmem := k } ∧ Inv W s' hand H) E := by
  refine (freeproc_spec h ?_).imp fun _ s₁ hs₁ => ?_
  · rw [setProc_self]
    exact (hv.blank hs).2.2.symm ▸ hl
  · obtain ⟨hi, k', hs₁⟩ := hs₁
    refine ⟨k', ?_, hi⟩
    have hblank : ((s.proc p).taken tf t).blank = s.proc p := hv.blank_eq hs
    rw [setProc_self, hblank] at hs₁
    rw [hs₁]
    exact (setProc_setProc { s with kmem := k' } p _ _).trans (setProc_eq_self _ p)

/-- What `allocproc` returns. -/
def Alloc (W : Ram) (s : Mem n) (hand : Fin nfile → ℤ) (H : Multiset ℕ) (o : Option (Fin n))
    (s' : Mem n) : Prop :=
  match o with
  | none => ∃ k, s' = { s with kmem := k } ∧ Inv W s' hand H
  | some q => (s.proc q).stage = .unused ∧ ∃ k tf t,
      s' = ({ s with kmem := k } : Mem n).setProc q ((s.proc q).taken (some tf) (some t)) ∧
      Layout t.map tf W.tramp 0 ∧ Inv W s' hand H

/-- `allocproc` takes an unused slot and makes an address space, or gives everything back. -/
theorem allocproc_spec (h : Good W s hand H) : Ends (allocproc s) (Alloc W s hand H) E := by
  rw [allocproc, get_bind]
  cases hq : (List.finRange n).find? fun p => (s.proc p).stage = .unused with
  | none => exact ⟨s.kmem, rfl, h.inv⟩
  | some q =>
    have hs : (s.proc q).stage = .unused := of_decide_eq_true (List.find?_some hq :)
    obtain ⟨htf, ht, hsz⟩ := (h.procs q).blank hs
    have hpages : (s.proc q).pages = 0 := by
      rw [Proc.pages, htf, ht]
      rfl
    have hfail : ∀ {k : Kmem} {tf : Option ℕ},
        Books W k (tf.elim 0 (fun x => {x}) + (s.pages + H)) →
        Ends (allocprocFail q (({ s with kmem := k } : Mem n).setProc q ((s.proc q).taken tf none)))
          (Alloc W s hand H) E := by
      intro k tf hk
      have hi : Inv W (({ s with kmem := k } : Mem n).setProc q ((s.proc q).taken tf none)) hand
          H := by
        refine h.inv.replace rfl (hk.of_eq ?_)
        rw [pages_setProc_of_eq_zero hpages, ← add_assoc]
        show _ = tf.elim 0 _ + 0 + s.pages + H
        rw [add_zero]
      rw [allocprocFail]
      exact Ends.bind (freeproc_taken (h.procs q) hs hi (by rintro _ ⟨⟩)) fun _ _ hs' => hs'
    show Ends (allocprocAt q s) _ _
    rw [allocprocAt, update_bind]
    refine Ends.bind (onKmem_spec
      (kalloc_spec h.inv.books)) fun tf s₁ hs₁ => ?_
    obtain ⟨k₁, rfl, hk₁⟩ := hs₁
    show Ends ((update q _ >>= _) (({ s with kmem := k₁ } : Mem n).setProc q _)) _ _
    have htaken : { s.proc q with stage := .used, trapframe := tf } = (s.proc q).taken tf none := by
      rw [Proc.taken, ← ht]
    rw [update_setProc]
    rw [htaken]
    cases tf with
    | none => exact hfail hk₁
    | some tf =>
      refine Ends.bind (onKmem_spec
        (procPagetable_spec tf hk₁)) fun t s₂ hs₂ => ?_
      obtain ⟨k₂, rfl, hk₂⟩ := hs₂
      show Ends ((update q _ >>= _) (({ s with kmem := k₂ } : Mem n).setProc q _)) _ _
      rw [update_setProc]
      cases t with
      | none => exact hfail hk₂
      | some t =>
        refine ⟨hs, k₂, tf, t, rfl, hk₂.2, h.inv.replace rfl (hk₂.1.of_eq ?_)⟩
        rw [pages_setProc_of_eq_zero hpages, Option.elim_some]
        show t.pages + ({tf} + (s.pages + H)) = {tf} + t.pages + s.pages + H
        abel

/-! ## Fork, exit and wait -/

/-- How a call has ended that was made when everything was good. -/
structure Fine (W : Ram) (p : Fin n) (s : Mem n) (r : Res) (s' : Mem n) : Prop where
  good : Good W s' 0 0
  back : r = .failed → Back p s s'

/-- Only the free pages have changed. -/
theorem Fine.of_kmem {r : Res} (h : Good W s 0 0) (hp : (s.proc p).stage = .live)
    (hi : Inv W ({ s with kmem := k } : Mem n) 0 0) : Fine W p s r { s with kmem := k } :=
  ⟨⟨hi, h.procs⟩, fun _ => .of_proc (h.space hp) rfl rfl⟩

/-- A file that a descriptor names has a positive count. -/
theorem Inv.ref_pos (h : Inv W s 0 H) (ho : (s.proc p).ofile fd = some f) : 0 < (s.file f).ref := by
  have hcount := h.files.count f
  have huse := one_le_uses (o := s.ofiles) ho
  rw [Pi.zero_apply] at hcount
  omega

/-- `kfork` duplicates the open files. -/
theorem kforkFiles_spec (fds : List (Fin nofile)) (hnd : fds.Nodup)
    (h : Inv W s 0 H) (hq : ∀ fd ∈ fds, (s.proc q).ofile fd = none) :
    Ends (kforkFiles p q fds s) (fun _ s' => Inv W s' 0 H ∧ ∃ file o,
      s' = ({ s with file := file } : Mem n).setProc q { s.proc q with ofile := o }) E := by
  induction fds generalizing s with
  | nil => exact ⟨h, s.file, (s.proc q).ofile, (setProc_eq_self s q).symm⟩
  | cons fd fds ih =>
    obtain ⟨hfd, hnd'⟩ := List.nodup_cons.mp hnd
    rw [kforkFiles, get_bind]
    cases ho : (s.proc p).ofile fd with
    | none => exact ih hnd' h fun g hg => hq g (.tail _ hg)
    | some f =>
      refine Ends.bind (filedup_spec h (h.ref_pos ho)) fun _ s₁ hs₁ => ?_
      obtain ⟨rfl, hi₁⟩ := hs₁
      rw [zero_add] at hi₁
      rw [update_bind]
      have hi₂ : Inv W ((s.setFile f { s.file f with ref := (s.file f).ref + 1 }).setProc q
          { s.proc q with ofile := Function.update (s.proc q).ofile fd (some f) }) 0 H := by
        refine hi₁.setProc rfl fun g => ?_
        show uses (s.ofiles.set q fd (some f)) g + 0 =
          uses s.ofiles g + (Pi.single f 1 : Fin nfile → ℤ) g
        rw [uses_set_some (show s.ofiles q fd = none from hq fd (.head _)), add_zero]
      refine (ih hnd' hi₂ fun g hg => ?_).imp ?_
      · rw [setProc_self]
        have hne : g ≠ fd := by
          rintro rfl
          exact hfd hg
        exact (update_of_ne hne _ _).trans (hq g (.tail _ hg))
      · rintro _ s' ⟨hi, file, o, hs'⟩
        rw [setProc_self] at hs'
        refine ⟨hi, file, o, hs'.trans ?_⟩
        exact setProc_setProc ({ s with file := file } : Mem n) q _ _

/-- `kfork` -/
theorem kfork_spec (h : Good W s 0 0) (hp : (s.proc p).stage = .live) :
    Ends (kfork p s) (Fine W p s) E := by
  obtain ⟨ptf, old, hptf, hold, hlp⟩ := h.space hp
  rw [kfork]
  refine Ends.bind (allocproc_spec h) fun o s₁ hs₁ => ?_
  cases o with
  | none =>
    obtain ⟨k, rfl, hi⟩ := hs₁
    exact .of_kmem h hp hi
  | some q =>
    obtain ⟨hs, k, tf, t, rfl, hl, hi⟩ := hs₁
    have hpq : p ≠ q := by
      rintro rfl
      rw [hs] at hp
      cases hp
    -- the state in which the slot of the child is `v`
    have hchild : ∀ {k : Kmem} {v : Proc n}, (({ s with kmem := k } : Mem n).setProc q v).proc p =
        s.proc p := fun {_ _} => setProc_of_ne _ hpq
    have hcopy : Ends (kforkCopy p q (({ s with kmem := k } : Mem n).setProc q
        ((s.proc q).taken (some tf) (some t)))) (fun ok s' => ∃ k' t',
          s' = ({ s with kmem := k' } : Mem n).setProc q
            ((s.proc q).taken (some tf) (some t')) ∧ Inv W s' 0 0 ∧
          (ok = false → t'.map = t.map) ∧
          (ok = true → Copied old.map (pgs (s.proc p).sz) t.map t'.map)) E := by
      rw [kforkCopy, get_bind, hchild, hold]
      refine (onTable_spec (t := t) (Q := fun ok m => (ok = false → m = t.map) ∧
        (ok = true → Copied old.map (pgs (s.proc p).sz) t.map m)) hi ?_ fun F hF => ?_).imp ?_
      · rw [setProc_self]
        rfl
      · exact uvmcopy_spec hlp.size (fun u hu => hl.free u (Nat.zero_le u) hu) hF
      · rintro ok s' ⟨k', t', rfl, hi', hq'⟩
        refine ⟨k', t', ?_, hi', hq'⟩
        rw [setProc_self]
        exact setProc_setProc ({ s with kmem := k' } : Mem n) q _ _
    refine Ends.bind hcopy fun ok s₂ hs₂ => ?_
    obtain ⟨k₂, t₂, rfl, hi₂, hfalse, htrue⟩ := hs₂
    cases ok with
    | false =>
      rw [if_neg Bool.false_ne_true]
      refine Ends.bind (freeproc_taken (h.procs q) hs hi₂ ?_) fun _ s₃ hs₃ => ?_
      · rintro _ ⟨⟩
        rw [hfalse rfl]
        exact ⟨tf, hl⟩
      · obtain ⟨k₃, rfl, hi₃⟩ := hs₃
        exact .of_kmem h hp hi₃
    | true =>
      have hc := htrue rfl
      rw [if_pos rfl, get_bind, hchild, update_setProc]
      -- the child has the size of the parent
      have hi₃ : Inv W (({ s with kmem := k₂ } : Mem n).setProc q
          { (s.proc q).taken (some tf) (some t₂) with sz := (s.proc p).sz }) 0 0 :=
        hi₂.setProc_again rfl rfl
      have hnone : ∀ fd, (s.proc q).ofile fd = none := (h.procs q).files (.inl hs)
      have hlq : Layout t₂.map tf W.tramp (s.proc p).sz := by
        have hpgs := pgs_le hlp.size
        refine hl.below hlp.size (fun u hu hu' => ?_) fun u hu => hc.same u (by omega)
        rw [hc.same u hu, hl.free u (Nat.zero_le u) hu']
      refine Ends.bind (kforkFiles_spec _ (List.nodup_finRange _) hi₃ fun fd _ => ?_)
        fun _ s₄ hs₄ => ?_
      · rw [setProc_self]
        exact hnone fd
      · obtain ⟨hi₄, file, o, hs₄⟩ := hs₄
        rw [setProc_self] at hs₄
        obtain rfl := hs₄.trans
          (setProc_setProc ({ s with kmem := k₂, file := file } : Mem n) q _ _)
        rw [update_setProc]
        refine ⟨.setProc h.procs ?_
          (hi₄.setProc_again rfl rfl), nofun⟩
        exact ⟨nofun, nofun, fun _ => ⟨tf, t₂, rfl, rfl, hlq⟩, fun hst => by
          cases hst <;> contradiction⟩

/-- A descriptor is freed whose file has been closed. -/
theorem Inv.clear (hand' : Fin nfile → ℤ) (h : Inv W s hand H)
    (ho : (s.proc p).ofile fd = some f) (hh : hand' = hand + Pi.single f 1) :
    Inv W (s.setProc p { s.proc p with ofile := Function.update (s.proc p).ofile fd none }) hand'
      H := by
  refine h.setProc rfl fun g => ?_
  show uses (s.ofiles.set p fd none) g + _ = _
  rw [uses_set_none (show s.ofiles p fd = some f from ho), hh, Pi.add_apply]
  omega

/-- `kexit` closes the open files. -/
theorem kexitFiles_spec (fds : List (Fin nofile)) (h : Inv W s 0 H) :
    Ends (kexitFiles p fds s) (fun _ s' => Inv W s' 0 H ∧ (∃ k file pipes o,
      s' = ({ s with kmem := k, file := file, pipes := pipes } : Mem n).setProc p
        { s.proc p with ofile := o } ∧
      ∀ fd, o fd = if fd ∈ fds then none else (s.proc p).ofile fd)) E := by
  induction fds generalizing s with
  | nil =>
    refine ⟨h, s.kmem, s.file, s.pipes, (s.proc p).ofile, (setProc_eq_self s p).symm, fun fd => ?_⟩
    rw [if_neg List.not_mem_nil]
  | cons fd fds ih =>
    rw [kexitFiles, get_bind]
    cases ho : (s.proc p).ofile fd with
    | none =>
      refine (ih h).imp ?_
      rintro _ s' ⟨hi, k, file, pipes, o, hs', hcl⟩
      refine ⟨hi, k, file, pipes, o, hs', fun g => ?_⟩
      rw [hcl g]
      by_cases hg : g = fd
      · rw [hg, ho, if_pos List.mem_cons_self, ite_self]
      · simp only [List.mem_cons, hg, false_or]
    | some f =>
      refine Ends.bind (fileclose_spec h (h.ref_pos ho)) fun _ s₁ hs₁ => ?_
      obtain ⟨⟨k, rfl⟩, hi₁⟩ := hs₁
      rw [update_bind]
      have hi₂ := hi₁.clear 0 ho (by rw [zero_sub, neg_add_cancel])
      refine (ih hi₂).imp ?_
      rintro _ s' ⟨hi, k', file, pipes, o, hs', hcl⟩
      rw [setProc_self] at hs' hcl
      refine ⟨hi, k', file, pipes, o, hs'.trans (setProc_setProc
        ({ s with kmem := k', file := file, pipes := pipes } : Mem n) p _ _), fun g => ?_⟩
      rw [hcl g]
      by_cases hg : g = fd
      · rw [hg, if_pos List.mem_cons_self]
        dsimp only
        rw [update_self, ite_self]
      · dsimp only
        rw [update_of_ne hg]
        simp only [List.mem_cons, hg, false_or]

theorem reparent_proc (init p q : Fin n) (s : Mem n) :
    ∃ x, (reparent init p s).proc q = { s.proc q with parent := x } := by
  by_cases hq : (s.proc q).parent = some p
  · exact ⟨some init, if_pos hq⟩
  · exact ⟨(s.proc q).parent, if_neg hq⟩

/-- `reparent` changes nothing that matters here. -/
theorem Inv.reparent (h : Inv W s hand H) (init p : Fin n) :
    Inv W (Vm.reparent init p s) hand H := by
  have hproc : ∀ q, ((Vm.reparent init p s).proc q).pages = (s.proc q).pages ∧
      ((Vm.reparent init p s).proc q).ofile = (s.proc q).ofile := by
    intro q
    obtain ⟨x, hx⟩ := reparent_proc init p q s
    rw [hx]
    exact ⟨rfl, rfl⟩
  have hofiles : (Vm.reparent init p s).ofiles = s.ofiles := funext fun q => (hproc q).2
  have hpages : (Vm.reparent init p s).pages = s.pages :=
    congrArg (· + pipePages s.pipes) (Finset.sum_congr rfl fun q _ => (hproc q).1)
  exact ⟨h.books.of_eq (by rw [hpages]), hofiles.symm ▸ h.files⟩

theorem ProcOk.setParent (h : ProcOk W v) (x : Option (Fin n)) : ProcOk W { v with parent := x } :=
  ⟨h.used, h.blank, h.space, h.files⟩

/-- `kexit` -/
theorem kexit_spec (init : Fin n) (h : Good W s 0 0) (hp : (s.proc p).stage = .live)
    (hE : p = init → E .initExiting) : Ends (kexit init p s) (Fine W p s) E := by
  rw [kexit]
  by_cases hinit : p = init
  · rw [if_pos hinit]
    exact hE hinit
  rw [if_neg hinit]
  refine Ends.bind (kexitFiles_spec (List.finRange nofile) h.inv) fun _ s₁ hs₁ => ?_
  obtain ⟨hi₁, k, file, pipes, o, hs₁, hcl⟩ := hs₁
  have hself : s₁.proc p = { s.proc p with ofile := o } := by rw [hs₁, setProc_self]
  have hother : ∀ q, q ≠ p → s₁.proc q = s.proc q := fun q hq => by rw [hs₁, setProc_of_ne _ hq]
  obtain ⟨tf, t, htf, ht, hl⟩ := h.space hp
  rw [modify_bind, update_bind]
  refine ⟨⟨(hi₁.reparent init p).setProc_same rfl rfl, fun q => ?_⟩, nofun⟩
  by_cases hq : q = p
  · obtain ⟨x, hx⟩ := reparent_proc init p p s₁
    rw [hq, setProc_self, hx, hself]
    refine ⟨nofun, nofun, fun _ => ⟨tf, t, htf, ht, hl⟩, fun _ fd => ?_⟩
    exact (hcl fd).trans (if_pos (List.mem_finRange fd))
  · obtain ⟨x, hx⟩ := reparent_proc init p q s₁
    rw [setProc_of_ne _ hq, hx, hother q hq]
    exact (h.procs q).setParent x

/-- `kwait` frees a zombie. -/
theorem kwaitReap_spec (h : Good W s 0 0) (hq : (s.proc q).stage = .zombie) :
    Ends (kwaitReap q s) (fun r s' => r = .done ∧ Good W s' 0 0) E := by
  obtain ⟨tf, t, -, ht, hl⟩ := (h.procs q).space (.inr hq)
  rw [kwaitReap, update_bind]
  have hi : Inv W (s.setProc q { s.proc q with parent := none }) 0 0 := h.inv.setProc_same rfl rfl
  refine Ends.bind (freeproc_spec hi ?_) fun _ s₁ hs₁ => ?_
  · rw [setProc_self]
    intro t' ht'
    obtain rfl : t = t' := Option.some.inj (ht.symm.trans ht')
    exact ⟨tf, hl⟩
  · obtain ⟨hi₁, k, hs₁⟩ := hs₁
    rw [setProc_self] at hs₁
    obtain rfl := hs₁.trans (setProc_setProc ({ s with kmem := k } : Mem n) q _ _)
    refine ⟨rfl, .setProc h.procs ?_ hi₁⟩
    exact ⟨nofun, fun _ => ⟨rfl, rfl, rfl⟩, fun hst => by cases hst <;> contradiction,
      fun _ => (h.procs q).files (.inr hq)⟩

/-- `kwait` -/
theorem kwait_spec (addr : ℕ) (h : Good W s 0 0) (hp : (s.proc p).stage = .live) :
    Ends (kwait p addr s) (Fine W p s) E := by
  have hsame : ∀ r, Fine W p s r s := fun r => ⟨h, fun _ => h.back hp⟩
  rw [kwait, get_bind]
  cases hq : (List.finRange n).find? fun q =>
      (s.proc q).parent = some p ∧ (s.proc q).stage = .zombie with
  | none =>
    dsimp only
    split_ifs
    · exact hsame _
    · exact hsame _
  | some q =>
    have hz : (s.proc q).stage = .zombie := (of_decide_eq_true (List.find?_some hq :)).2
    have hne : q ≠ p := by
      rintro rfl
      rw [hz] at hp
      cases hp
    have hreap : ∀ {s₁ : Mem n}, Good W s₁ 0 0 → (s₁.proc q).stage = .zombie →
        Ends (kwaitReap q s₁) (Fine W p s) E := by
      intro s₁ hg hz₁
      refine (kwaitReap_spec hg hz₁).imp ?_
      rintro _ s' ⟨rfl, hg'⟩
      exact ⟨hg', nofun⟩
    dsimp only
    by_cases haddr : addr = 0
    · rw [if_pos haddr]
      exact hreap h hz
    · rw [if_neg haddr]
      refine Ends.bind (access_spec h hp fun _ _ _ _ => copyout_spec)
        fun ok s₁ hs₁ => ?_
      obtain ⟨hg, hback, -⟩ := hs₁
      split_ifs
      · refine hreap hg ?_
        rw [hback.others q hne]
        exact hz
      · exact ⟨hg, fun _ => hback⟩

/-! ## The fields of a process that is alive -/

/-- The result of code that reports success. -/
theorem result_spec {c : MM n Bool} (h : Ends (c s) (fun ok s' => Good W s' 0 0 ∧
    (ok = false → Back p s s')) E) : Ends (result c s) (Fine W p s) E := by
  rw [result]
  refine Ends.bind h fun ok s' hs' => ⟨hs'.1, fun hr => hs'.2 ?_⟩
  cases ok with
  | false => rfl
  | true => cases hr

/-- The address space of a process that is alive changes. -/
theorem Good.space_change (h : Good W s hand H) (hp : (s.proc p).stage = .live)
    (hs : v.stage = (s.proc p).stage) (hv : HasSpace W v)
    (hi : Inv W (({ s with kmem := k } : Mem n).setProc p v) hand H) :
    Good W (({ s with kmem := k } : Mem n).setProc p v) hand H := by
  refine .setProc h.procs ?_ hi
  rw [hp] at hs
  refine ⟨?_, fun hst => ?_, fun _ => hv, fun hst => ?_⟩
  · rw [hs]
    exact nofun
  · rw [hs] at hst
    cases hst
  · rw [hs] at hst
    cases hst <;> contradiction

/-- The size is written after the table. -/
theorem Inv.setSize {t : Table} {sz : ℕ}
    (h : Inv W (({ s with kmem := k } : Mem n).setProc p { s.proc p with pagetable := some t })
      hand H) :
    Inv W (({ s with kmem := k } : Mem n).setProc p
      { s.proc p with pagetable := some t, sz := sz }) hand H :=
  h.setProc_again rfl rfl

/-- A process that is alive may have any descriptors. -/
theorem ProcOk.setOfile (h : ProcOk W v) (hv : v.stage = .live)
    (o : Fin nofile → Option (Fin nfile)) : ProcOk W { v with ofile := o } := by
  refine ⟨h.used, h.blank, h.space, fun hst => ?_⟩
  rw [show v.stage = .live from hv] at hst
  cases hst <;> contradiction

/-- Only descriptors of a process that is alive have changed. -/
theorem procs_setOfile (h : ∀ q, ProcOk W (s.proc q)) (hp : (s.proc p).stage = .live)
    (o : Fin nofile → Option (Fin nfile)) (q : Fin n) :
    ProcOk W ((s.setProc p { s.proc p with ofile := o }).proc q) := by
  by_cases hq : q = p
  · rw [hq, setProc_self]
    exact (h p).setOfile hp o
  · rw [setProc_of_ne _ hq]
    exact h q

/-- A new file becomes something other than a pipe. -/
theorem Inv.setOther (h : Inv W s hand H) (hf : s.file f = ⟨1, .none⟩) :
    Inv W (s.setFile f { s.file f with kind := .other }) hand H := by
  have hset := h.setFile (v := ⟨1, .other⟩) (d := 0) (by rw [hf]; rfl)
    (fun pi w => by rw [hf]; exact iff_of_false nofun nofun) nofun
  rw [Pi.single_zero, add_zero] at hset
  rwa [hf]

/-! ## Exec -/

/-- `kexec` replaces the address space, or leaves everything as it was. -/
theorem kexec_spec (prog : Option Program) (lens : List ℕ) (h : Good W s 0 H)
    (hp : (s.proc p).stage = .live) :
    Ends (kexec p prog lens s) (fun ok s' => Good W s' 0 H ∧ (ok = false → Back p s s') ∧
      (s'.proc p).stage = .live) E := by
  have hspace := h.space hp
  obtain ⟨tf, old, htf, hold, hl⟩ := h.space hp
  rw [kexec, get_bind]
  cases prog with
  | none => exact ⟨h, fun _ => .of_proc hspace rfl rfl, hp⟩
  | some prog =>
    rw [htf, hold]
    refine Ends.bind (onKmem_spec (kexecTable_spec prog lens tf h.inv.books))
      fun o s₁ hs₁ => ?_
    obtain ⟨k, rfl, hk⟩ := hs₁
    cases o with
    | none => exact ⟨⟨h.inv.kmem hk, h.procs⟩, fun _ => .of_proc hspace rfl rfl, hp⟩
    | some r =>
      obtain ⟨t, sz⟩ := r
      obtain ⟨hb, hl'⟩ := hk
      show Ends ((update p _ >>= _) _) _ _
      rw [update_bind]
      obtain ⟨rest, hrest, hput⟩ := pages_split s p
      have hbook : Books W k (old.pages + ((s.setProc p
          { s.proc p with pagetable := some t, sz := sz }).pages + H)) := by
        refine hb.of_eq ?_
        rw [hput, hrest, Proc.pages, Proc.pages, hold, Option.elim_some, Option.elim_some]
        abel
      refine Ends.bind (onKmem_spec (procFreepagetable_spec hl hbook))
        fun _ s₂ hs₂ => ?_
      obtain ⟨k₂, rfl, hk₂⟩ := hs₂
      refine ⟨h.space_change hp rfl
        ⟨tf, t, htf, rfl, hl'⟩ (h.inv.replace rfl hk₂), by rintro ⟨⟩, ?_⟩
      rw [show ({ ({ s with kmem := k } : Mem n).setProc p { s.proc p with
        pagetable := some t, sz := sz } with kmem := k₂ } : Mem n).proc p = _ from setProc_self _ _]
      exact hp

theorem fetchaddr_spec (addr : ℕ) (h : Good W s 0 H) (hp : (s.proc p).stage = .live) :
    Ends (fetchaddr p addr s) (fun _ s' => Good W s' 0 H ∧ Back p s s') E := by
  rw [fetchaddr, get_bind]
  split_ifs
  · exact ⟨h, h.back hp⟩
  · exact (access_spec h hp fun _ _ _ _ => copyin_spec).imp
      fun _ _ hs' => ⟨hs'.1, hs'.2.1⟩

theorem fetchstr_spec (addr max nul : ℕ) (h : Good W s 0 H) (hp : (s.proc p).stage = .live) :
    Ends (fetchstr p addr max nul s) (fun _ s' => Good W s' 0 H ∧ Back p s s') E :=
  (access_spec h hp fun _ _ _ _ => copyinstr_spec).imp
    fun _ _ hs' => ⟨hs'.1, hs'.2.1⟩

/-- `sys_exec` has the pages of the arguments in its hands. -/
theorem sysExecArgs_spec (uargv : ℕ) (args : List (ℕ × ℕ)) (i : ℕ) (pages : List ℕ)
    (h : Good W s 0 (pages : Multiset ℕ)) (hp : (s.proc p).stage = .live) :
    Ends (sysExecArgs p uargv args i pages s) (fun r s' =>
      Good W s' 0 (r.2 : Multiset ℕ) ∧ Back p s s') E := by
  have hsame : ∀ r : Bool, Good W s 0 (pages : Multiset ℕ) ∧ Back p s s :=
    fun _ => ⟨h, h.back hp⟩
  induction args generalizing i pages s with
  | nil =>
    rw [sysExecArgs]
    split_ifs with hi
    · exact hsame true
    · refine Ends.bind (fetchaddr_spec _ h hp) fun ok s₁ hs₁ => ?_
      split_ifs
      · exact hs₁
      · exact hs₁
  | cons arg args ih =>
    rw [sysExecArgs]
    split_ifs with hi
    · exact hsame true
    · refine Ends.bind (fetchaddr_spec _ h hp) fun ok s₁ hs₁ => ?_
      obtain ⟨hg₁, hback₁⟩ := hs₁
      split_ifs with hok
      · refine Ends.bind hg₁.inv.kalloc fun o s₂ hs₂ => ?_
        obtain ⟨k, rfl, hi₂⟩ := hs₂
        have hlive₁ : (s₁.proc p).stage = .live := hback₁.stage.trans hp
        have hback₂ : Back p s { s₁ with kmem := k } :=
          hback₁.trans (.of_proc (hg₁.space hlive₁) rfl rfl)
        cases o with
        | none => exact ⟨⟨by simpa using hi₂, hg₁.procs⟩, hback₂⟩
        | some page =>
          have hg₂ : Good W ({ s₁ with kmem := k } : Mem n) 0 ((page :: pages : List ℕ) :
              Multiset ℕ) := ⟨by simpa using hi₂, hg₁.procs⟩
          refine Ends.bind (fetchstr_spec _ _ _ hg₂ hlive₁) fun ok s₃ hs₃ => ?_
          obtain ⟨hg₃, hback₃⟩ := hs₃
          have hlive₃ : (s₃.proc p).stage = .live := hback₃.stage.trans hlive₁
          split_ifs
          · refine (ih (i + 1) (page :: pages) hg₃ hlive₃
              fun _ => ⟨hg₃, hg₃.back hlive₃⟩).imp fun r s' hs' => ?_
            exact ⟨hs'.1, (hback₂.trans hback₃).trans hs'.2⟩
          · exact ⟨hg₃, hback₂.trans hback₃⟩
      · exact ⟨hg₁, hback₁⟩

theorem kfreeAll_spec (xs : List ℕ) (h : Books W k ((xs : Multiset ℕ) + F)) :
    Ends (kfreeAll xs k) (fun _ k' => Books W k' F) E := by
  induction xs generalizing k with
  | nil => exact h.of_eq (zero_add F)
  | cons x xs ih =>
    rw [kfreeAll]
    refine Ends.bind (kfree_spec (h.of_eq ?_)) fun _ k' hk' => ih hk'
    rw [← Multiset.cons_coe, ← Multiset.singleton_add, add_assoc]

/-- `sys_exec` -/
theorem sysExec_spec (path : ℕ × ℕ) (uargv : ℕ) (args : List (ℕ × ℕ)) (prog : Option Program)
    (h : Good W s 0 0) (hp : (s.proc p).stage = .live) :
    Ends (sysExec p path uargv args prog s) (fun ok s' => Good W s' 0 0 ∧
      (ok = false → Back p s s')) E := by
  -- the pages of the arguments are freed in the end
  have hfree : ∀ {pages : List ℕ} {ok : Bool} {s₁ : Mem n}, Good W s₁ 0 (pages : Multiset ℕ) →
      (ok = false → Back p s s₁) → (s₁.proc p).stage = .live →
      Ends ((onKmem (kfreeAll pages.reverse) >>= fun _ => pure ok) s₁)
        (fun ok s' => Good W s' 0 0 ∧ (ok = false → Back p s s')) E := by
    intro pages ok s₁ hg hback hlive
    have hbook : Books W s₁.kmem ((pages.reverse : Multiset ℕ) + s₁.pages) := by
      refine hg.inv.books.of_eq ?_
      rw [Multiset.coe_reverse, add_comm]
    refine Ends.bind (onKmem_spec (kfreeAll_spec _ hbook)) fun _ s₂ hs₂ => ?_
    obtain ⟨k, rfl, hk⟩ := hs₂
    refine ⟨⟨hg.inv.kmem (hk.of_eq (add_zero _).symm), hg.procs⟩, fun hok => ?_⟩
    exact (hback hok).trans (.of_proc (hg.space hlive) rfl rfl)
  rw [sysExec]
  refine Ends.bind (fetchstr_spec _ _ _ h hp) fun ok s₁ hs₁ => ?_
  obtain ⟨hg₁, hback₁⟩ := hs₁
  have hlive₁ : (s₁.proc p).stage = .live := hback₁.stage.trans hp
  split_ifs with hok
  · refine Ends.bind (sysExecArgs_spec uargv args 0 [] hg₁ hlive₁) fun r s₂ hs₂ => ?_
    obtain ⟨hg₂, hback₂⟩ := hs₂
    have hlive₂ : (s₂.proc p).stage = .live := hback₂.stage.trans hlive₁
    split_ifs with hr
    · refine Ends.bind (kexec_spec prog _ hg₂ hlive₂) fun ok s₃ hs₃ => ?_
      obtain ⟨hg₃, hback₃, hlive₃⟩ := hs₃
      exact hfree hg₃ (fun hok => (hback₁.trans hback₂).trans (hback₃ hok)) hlive₃
    · exact hfree hg₂ (fun _ => hback₁.trans hback₂) hlive₂
  · exact ⟨hg₁, fun _ => hback₁⟩

/-! ## Growing and shrinking -/

theorem toInt_lt (k : Int32) : k.toInt < 2 ^ 31 ∧ -2 ^ 31 ≤ k.toInt :=
  ⟨k.toInt_lt, k.le_toInt⟩

theorem HasSpace.add_lt (h : HasSpace W v) (k : Int32) : v.sz + k.toInt.toNat < 2 ^ 64 := by
  obtain ⟨tf, t, -, -, hl⟩ := h
  have hsz := hl.size
  have htf := tfPage_eq
  rw [trapframe_eq] at hsz
  have : v.sz ≤ tfPage * 4096 := hsz
  have := (toInt_lt k).1
  omega

/-- The two copies of `sys_pipe`. -/
theorem sysPipeCopy_spec (fdarray : ℕ) (h : Good W s hand H) (hp : (s.proc p).stage = .live) :
    Ends (sysPipeCopy p fdarray s) (fun _ s' => Good W s' hand H ∧ Back p s s' ∧
      s'.file = s.file) E := by
  rw [sysPipeCopy]
  refine Ends.bind (access_spec h hp fun _ _ _ _ => copyout_spec) fun ok s₁ hs₁ => ?_
  obtain ⟨hg₁, hback₁, hfile₁⟩ := hs₁
  split_ifs
  · refine (access_spec hg₁ (hback₁.stage.trans hp) fun _ _ _ _ => copyout_spec).imp ?_
    rintro _ s₂ ⟨hg₂, hback₂, hfile₂⟩
    exact ⟨hg₂, hback₁.trans hback₂, hfile₂.trans hfile₁⟩
  · exact ⟨hg₁, hback₁, hfile₁⟩

section

variable (h : Good W s 0 0) (hp : (s.proc p).stage = .live)
include h hp

theorem growprocUp_spec (bytes : ℕ) (hlt : (s.proc p).sz + bytes < 2 ^ 64) :
    Ends (growprocUp p bytes s) (fun ok s' => Good W s' 0 0 ∧ (ok = false → Back p s s')) E := by
  obtain ⟨tf, t, htf, ht, hl⟩ := h.space hp
  rw [growprocUp, get_bind, Nat.mod_eq_of_lt hlt]
  by_cases hbig : Vm.trapframe < (s.proc p).sz + bytes
  · rw [if_pos hbig]
    exact ⟨h, fun _ => h.back hp⟩
  rw [if_neg hbig]
  refine Ends.bind (onTable_spec h.inv ht (Q := fun r m => (r = 0 → m = t.map) ∧ (r ≠ 0 →
      r = max (s.proc p).sz ((s.proc p).sz + bytes) ∧ r ≤ Vm.trapframe ∧
      Grown ⟨true, false, true⟩ (pgs (s.proc p).sz) (pgs r) t.map m)) fun F hF => ?_)
    fun r s₁ hs₁ => ?_
  · rw [Nat.mod_eq_of_lt hlt]
    exact uvmalloc_spec hl.size hl.free (.inl (Nat.not_lt.mp hbig)) hF
  · obtain ⟨k, t', rfl, hi, hzero, hgrown⟩ := hs₁
    by_cases hr : r = 0
    · rw [if_pos hr]
      have hmap := hzero hr
      refine ⟨h.space_change hp rfl ⟨tf, t', htf, rfl, hmap ▸ hl⟩ hi, fun _ => ?_⟩
      exact ⟨fun q hq => setProc_of_ne _ hq, rfl, t, t', ht, setProc_self _ _, hmap ▸ .refl _ _⟩
    · obtain ⟨hmax, hle, hg⟩ := hgrown hr
      rw [if_neg hr, update_setProc]
      have hold : (s.proc p).sz ≤ r := by omega
      exact ⟨h.space_change hp rfl ⟨tf, t', htf, rfl, hl.grow hold hle hg⟩ hi.setSize, nofun⟩

theorem growprocDown_spec (bytes : ℕ) :
    Ends (growprocDown p bytes s) (fun ok s' => Good W s' 0 0 ∧ (ok = false → Back p s s')) E := by
  obtain ⟨tf, t, htf, ht, hl⟩ := h.space hp
  rw [growprocDown]
  generalize hnew : (fun sz => (sz + (2 ^ 64 - bytes)) % 2 ^ 64) = new
  refine Ends.bind (onTable_spec h.inv ht (Q := fun r m =>
    r = min (s.proc p).sz (new (s.proc p).sz) ∧
      m = without t.map (pgs (new (s.proc p).sz)) (pgs (s.proc p).sz)) fun F hF => ?_)
    fun r s₁ hs₁ => ?_
  · rw [← hnew]
    exact uvmdealloc_spec hl.size hF
  · obtain ⟨k, t', rfl, hi, hr, hm⟩ := hs₁
    rw [update_setProc]
    refine ⟨h.space_change hp rfl ⟨tf, t', htf, rfl, ?_⟩ hi.setSize, nofun⟩
    rcases Nat.le_total (s.proc p).sz (new (s.proc p).sz) with hle | hle
    · rw [hr, min_eq_left hle, hm, without_of_le (pgs_mono hle)]
      exact hl
    · rw [hr, min_eq_right hle]
      exact hl.shrink hle hm

theorem growproc_spec (k : Int32) :
    Ends (growproc p k s) (fun ok s' => Good W s' 0 0 ∧ (ok = false → Back p s s')) E := by
  rw [growproc]
  split_ifs
  · exact growprocUp_spec h hp _ ((h.space hp).add_lt k)
  · exact growprocDown_spec h hp _
  · exact ⟨h, nofun⟩

/-- `sys_sbrk` -/
theorem sysSbrk_spec (k t : Int32) :
    Ends (sysSbrk p k t s) (fun ok s' => Good W s' 0 0 ∧ (ok = false → Back p s s')) E := by
  have hsame : Good W s 0 0 ∧ (false = false → Back p s s) :=
    ⟨h, fun _ => h.back hp⟩
  have hlt := (h.space hp).add_lt k
  rw [sysSbrk]
  by_cases heager : t = 1 ∨ k.toInt < 0
  · rw [if_pos heager]
    exact growproc_spec h hp k
  rw [if_neg heager, get_bind, Nat.mod_eq_of_lt hlt]
  by_cases hwrap : (s.proc p).sz + k.toInt.toNat < (s.proc p).sz
  · rw [if_pos hwrap]
    exact hsame
  by_cases hbig : Vm.trapframe < (s.proc p).sz + k.toInt.toNat
  · rw [if_neg hwrap, if_pos hbig]
    exact hsame
  rw [if_neg hwrap, if_neg hbig, update_bind, Nat.mod_eq_of_lt hlt]
  obtain ⟨tf, t, htf, ht, hl⟩ := h.space hp
  refine ⟨h.space_change hp rfl ⟨tf, t, htf, ht, ?_⟩ (h.inv.setProc_same rfl rfl),
    nofun⟩
  exact hl.mono (Nat.le_add_right _ _) (Nat.not_lt.mp hbig)

/-! ## Descriptors and pipes -/

/-- `sys_close` -/
theorem sysClose_spec (fd : Fin nofile) : Ends (sysClose p fd s) (Fine W p s) E := by
  rw [sysClose, get_bind]
  cases ho : (s.proc p).ofile fd with
  | none => exact ⟨h, fun _ => h.back hp⟩
  | some f =>
    show Ends ((update p _ >>= _) _) _ _
    rw [update_bind]
    have hi₁ := h.inv.clear (Pi.single f 1) ho (zero_add _).symm
    refine Ends.bind (fileclose_spec hi₁ (h.inv.ref_pos ho)) fun _ s₁ hs₁ => ?_
    obtain ⟨⟨k, rfl⟩, hi₂⟩ := hs₁
    rw [sub_self] at hi₂
    exact ⟨⟨hi₂, procs_setOfile h.procs hp _⟩, nofun⟩

/-- `sys_dup` -/
theorem sysDup_spec (fd : Fin nofile) : Ends (sysDup p fd s) (Fine W p s) E := by
  have hsame : Fine W p s .failed s := ⟨h, fun _ => h.back hp⟩
  rw [sysDup, get_bind]
  cases ho : (s.proc p).ofile fd with
  | none => exact hsame
  | some f =>
    refine Ends.bind (fdalloc_spec h.inv) fun r s₁ hs₁ => ?_
    cases r with
    | none =>
      obtain rfl : s₁ = s := hs₁
      exact hsame
    | some fd' =>
      obtain ⟨-, rfl, hi₁⟩ := hs₁
      refine Ends.bind (filedup_spec hi₁ (h.inv.ref_pos ho)) fun _ s₂ hs₂ => ?_
      obtain ⟨rfl, hi₂⟩ := hs₂
      rw [sub_add_cancel] at hi₂
      exact ⟨⟨hi₂, procs_setOfile h.procs hp _⟩, nofun⟩

/-- `sys_open` -/
theorem sysOpen_spec : Ends (sysOpen p s) (Fine W p s) E := by
  rw [sysOpen]
  refine Ends.bind (filealloc_spec h.inv) fun o s₁ hs₁ => ?_
  cases o with
  | none =>
    obtain rfl : s₁ = s := hs₁
    exact ⟨h, fun _ => h.back hp⟩
  | some f =>
    obtain ⟨hf, rfl, hi₁⟩ := hs₁
    refine Ends.bind (fdalloc_spec hi₁) fun fd s₂ hs₂ => ?_
    cases fd with
    | none =>
      obtain rfl : s₂ = _ := hs₂
      refine Ends.bind (fileclose_new hi₁ (setFile_self f _)) fun _ s₃ hs₃ => ?_
      obtain ⟨⟨k, rfl⟩, hi₃⟩ := hs₃
      exact ⟨⟨hi₃, h.procs⟩, fun _ => .of_proc (h.space hp) rfl rfl⟩
    | some fd =>
      obtain ⟨-, rfl, hi₂⟩ := hs₂
      rw [add_sub_cancel_right] at hi₂
      exact ⟨⟨hi₂.setOther (setFile_self f _), procs_setOfile h.procs hp _⟩, nofun⟩

/-- `sys_pipe` gives up: the descriptors are cleared and the pipe is gone. -/
theorem sysPipeFail_spec {f₀ f₁ : Fin nfile} {fds : List (Fin nofile)} {pi : ℕ} {s₁ : Mem n}
    {o : Fin nofile → Option (Fin nfile)} (hne : f₀ ≠ f₁)
    (h₀ : s.file f₀ = ⟨0, .none⟩) (h₁ : s.file f₁ = ⟨0, .none⟩) (hpi : pi ∉ s.pages)
    (hi : Inv W s₁ hand 0) (hstate : ∃ k t', s₁ = (s.withPipe k f₀ f₁ pi).setProc p
      { s.proc p with pagetable := some t', ofile := o } ∧
      ∃ t, (s.proc p).pagetable = some t ∧ Extends (pgs (s.proc p).sz) t.map t'.map)
    (ho : ∀ fd, (s.proc p).ofile fd = if fd ∈ fds then none else o fd) :
    Ends (sysPipeFail p fds f₀ f₁ s₁) (Fine W p s) E := by
  obtain ⟨k, t', rfl, t, ht, he⟩ := hstate
  obtain ⟨tf, t₁, htf, ht₁, hl⟩ := h.space hp
  obtain rfl : t = t₁ := Option.some.inj (ht.symm.trans ht₁)
  have hofile : (fun fd => if fd ∈ fds then none else o fd) = (s.proc p).ofile :=
    funext fun fd => (ho fd).symm
  rw [sysPipeFail, update_setProc]
  rw [hofile]
  -- the counts are those of the two new files
  have hcount : ∀ f, (((s.withPipe k f₀ f₁ pi).file f).ref : ℤ) =
      uses s.ofiles f + (0 + Pi.single f₀ 1 + Pi.single f₁ 1 : Fin nfile → ℤ) f := by
    intro f
    have hcount := h.inv.files.count f
    rw [Pi.add_apply, Pi.add_apply, Pi.zero_apply, zero_add]
    show ((Function.update (Function.update s.file f₀ ⟨1, .pipe pi false⟩) f₁
      ⟨1, .pipe pi true⟩ f).ref : ℤ) = _
    rw [Pi.zero_apply] at hcount
    by_cases hf₁ : f = f₁
    · rw [hf₁, h₁] at hcount
      replace hcount : (0 : ℤ) = uses s.ofiles f₁ + 0 := hcount
      rw [hf₁, update_self, Pi.single_eq_of_ne hne.symm, Pi.single_eq_same]
      show (1 : ℤ) = _
      omega
    by_cases hf₀ : f = f₀
    · rw [hf₀, h₀] at hcount
      replace hcount : (0 : ℤ) = uses s.ofiles f₀ + 0 := hcount
      rw [hf₀, update_of_ne hne, update_self, Pi.single_eq_same, Pi.single_eq_of_ne hne]
      show (1 : ℤ) = _
      omega
    · rw [update_of_ne hf₁, update_of_ne hf₀, Pi.single_eq_of_ne hf₀, Pi.single_eq_of_ne hf₁]
      omega
  have hi₁ : Inv W ((s.withPipe k f₀ f₁ pi).setProc p { s.proc p with pagetable := some t' })
      (0 + Pi.single f₀ 1 + Pi.single f₁ 1) 0 := by
    rw [← setProc_setProc _ p { s.proc p with pagetable := some t', ofile := o }]
    refine hi.setProc ?_ fun f => ?_
    · rw [setProc_self]
      rfl
    · have hsame := ofiles_setProc_same (s := s.withPipe k f₀ f₁ pi)
        (v := { s.proc p with pagetable := some t' }) rfl
      rw [← hi.files.count f, ← ofiles_setProc, setProc_setProc, hsame]
      exact (hcount f).symm
  rw [bind_bind]
  refine Ends.bind (fileclose_pipe hne h₀ h₁ rfl rfl
    (fun hmem => hpi (Multiset.mem_add.mpr (.inr hmem))) hi₁) fun _ s₂ hs₂ => ?_
  obtain ⟨k₂, rfl, hi₂⟩ := hs₂
  have hstate : ({ (s.withPipe k f₀ f₁ pi).setProc p { s.proc p with pagetable := some t' } with
      kmem := k₂, file := s.file, pipes := s.pipes } : Mem n) =
      ({ s with kmem := k₂ } : Mem n).setProc p { s.proc p with pagetable := some t' } := rfl
  rw [hstate] at hi₂ ⊢
  refine ⟨h.space_change hp rfl ⟨tf, t', htf, rfl, hl.extend he⟩ hi₂, fun _ => ?_⟩
  exact ⟨fun q hq => setProc_of_ne _ hq, rfl, t, t', ht, setProc_self _ _, he⟩

/-- `sys_pipe` -/
theorem sysPipe_spec (fdarray : ℕ) : Ends (sysPipe p fdarray s) (Fine W p s) E := by
  obtain ⟨tf, t, htf, ht, hl⟩ := h.space hp
  rw [sysPipe]
  refine Ends.bind (pipealloc_spec h.inv) fun o s₁ hs₁ => ?_
  cases o with
  | none =>
    obtain ⟨k, rfl, hi⟩ := hs₁
    exact .of_kmem h hp hi
  | some r =>
    obtain ⟨f₀, f₁⟩ := r
    obtain ⟨hne, h₀, h₁, k, pi, hpi, rfl, hi₁⟩ := hs₁
    have hproc : (s.withPipe k f₀ f₁ pi).proc p = { s.proc p with pagetable := some t } := by
      rw [← ht]
      rfl
    refine Ends.bind (fdalloc_spec hi₁) fun fd₀ s₂ hs₂ => ?_
    cases fd₀ with
    | none =>
      obtain rfl : s₂ = _ := hs₂
      refine sysPipeFail_spec h hp hne h₀ h₁ hpi hi₁ (o := (s.proc p).ofile)
        ⟨k, t, ?_, t, ht, .refl _ _⟩ fun fd => ?_
      · exact (setProc_eq_self _ p).symm.trans (congrArg _ hproc)
      · rw [if_neg List.not_mem_nil]
    | some fd₀ =>
      obtain ⟨hfd₀, rfl, hi₂⟩ := hs₂
      have hstate₂ : (s.withPipe k f₀ f₁ pi).setProc p { (s.withPipe k f₀ f₁ pi).proc p with
          ofile := Function.update (s.proc p).ofile fd₀ (some f₀) } =
          (s.withPipe k f₀ f₁ pi).setProc p { s.proc p with
            pagetable := some t, ofile := Function.update (s.proc p).ofile fd₀ (some f₀) } := by
        rw [hproc]
      refine Ends.bind (fdalloc_spec hi₂) fun fd₁ s₃ hs₃ => ?_
      cases fd₁ with
      | none =>
        obtain rfl : s₃ = _ := hs₃
        refine sysPipeFail_spec h hp hne h₀ h₁ hpi hi₂ ⟨k, t, hstate₂, t, ht, .refl _ _⟩
          fun fd => ?_
        by_cases hfd : fd = fd₀
        · rw [hfd, if_pos (.head _)]
          exact hfd₀
        · rw [if_neg (by simpa using hfd), update_of_ne hfd]
      | some fd₁ =>
        obtain ⟨hfd₁, hs₃, hi₃⟩ := hs₃
        rw [setProc_self, setProc_setProc, hproc] at hs₃
        rw [setProc_self] at hfd₁
        replace hfd₁ : Function.update (s.proc p).ofile fd₀ (some f₀) fd₁ = none := hfd₁
        have hne' : fd₁ ≠ fd₀ := by
          rintro rfl
          rw [update_self] at hfd₁
          cases hfd₁
        rw [update_of_ne hne'] at hfd₁
        rw [add_sub_right_comm, add_sub_cancel_right, add_sub_cancel_right] at hi₃
        have hlive : (s₃.proc p).stage = .live := by
          rw [hs₃, setProc_self]
          exact hp
        have hg₃ : Good W s₃ 0 0 := by
          refine ⟨hi₃, fun q => ?_⟩
          have hprocs := procs_setOfile h.procs hp
            (Function.update (Function.update (s.proc p).ofile fd₀ (some f₀)) fd₁ (some f₁)) q
          rw [hs₃]
          rw [← hproc]
          exact hprocs
        refine Ends.bind (sysPipeCopy_spec fdarray hg₃ hlive) fun ok s₄ hs₄ => ?_
        obtain ⟨hg₄, hback, hfile⟩ := hs₄
        cases ok with
        | true => exact ⟨hg₄, nofun⟩
        | false =>
          obtain ⟨t₃, t₄, ht₃, hs₄, he⟩ := hback.state hfile
          rw [hs₃, setProc_self] at ht₃ hs₄ he
          obtain rfl : t = t₃ := Option.some.inj ht₃
          rw [if_neg Bool.false_ne_true]
          refine sysPipeFail_spec h hp hne h₀ h₁ hpi hg₄.inv (o := Function.update
              (Function.update (s.proc p).ofile fd₀ (some f₀)) fd₁ (some f₁))
            ⟨s₄.kmem, t₄, ?_, t, ht, he⟩ fun fd => ?_
          · exact hs₄.trans (setProc_setProc (s.withPipe s₄.kmem f₀ f₁ pi) p _ _)
          · by_cases hfd : fd = fd₀
            · rw [hfd, if_pos (.head _)]
              exact hfd₀
            by_cases hfd' : fd = fd₁
            · rw [hfd', if_pos (.tail _ (.head _))]
              exact hfd₁
            · rw [if_neg (by simp [hfd, hfd']), update_of_ne hfd', update_of_ne hfd]

/-! ## Sequences of operations -/

/-- Code that only accesses the memory of the caller. -/
theorem access_fine {c : Table → ℕ → VM (Bool × Table)}
    (hc : ∀ t sz k F, sz ≤ Vm.trapframe → Books W k (t.pages + F) →
      Ends (c t sz k) (Demanded W F sz t) E) : Ends (result (onTable p c) s) (Fine W p s) E :=
  result_spec ((access_spec h hp hc).imp fun _ _ hs' => ⟨hs'.1, fun _ => hs'.2.1⟩)

/-- Every operation keeps what holds between operations. -/
theorem Op.code_spec (init : Fin n) (op : Op) (hE : E .initExiting) :
    Ends (op.code init p s) (Fine W p s) E := by
  cases op with
  | kfork => exact kfork_spec h hp
  | kexit => exact kexit_spec init h hp fun _ => hE
  | kwait addr => exact kwait_spec addr h hp
  | kexec prog lens =>
    exact result_spec ((kexec_spec prog lens h hp).imp fun _ _ hs' => ⟨hs'.1, hs'.2.1⟩)
  | sysExec path uargv args prog => exact result_spec (sysExec_spec path uargv args prog h hp)
  | sysSbrk k t => exact result_spec (sysSbrk_spec h hp k t)
  | vmfault va =>
    refine result_spec (Ends.bind (access_spec h hp fun _ _ _ _ hsz hF => ?_) fun r s' hs' =>
      ⟨hs'.1, fun _ => hs'.2.1⟩)
    exact (vmfault_spec hsz hF).imp fun _ _ hr => ⟨hr.1, hr.2.1⟩
  | copyout dstva len => exact access_fine h hp fun _ _ _ _ => copyout_spec
  | copyin srcva len => exact access_fine h hp fun _ _ _ _ => copyin_spec
  | copyinstr srcva max nul => exact access_fine h hp fun _ _ _ _ => copyinstr_spec
  | sysPipe fdarray => exact sysPipe_spec h hp fdarray
  | sysClose fd => exact sysClose_spec h hp fd
  | sysDup fd => exact sysDup_spec h hp fd
  | sysOpen => exact sysOpen_spec h hp

end

theorem step_spec (init : Fin n) (x : Fin n × Op) (h : Good W s 0 0) (hE : E .initExiting) :
    Ends (step init x s) (fun r s' => Good W s' 0 0 ∧ (r = .failed → Back x.1 s s')) E := by
  rw [step, get_bind]
  by_cases hp : (s.proc x.1).stage = .live
  · rw [if_pos hp]
    exact (Op.code_spec h hp init x.2 hE).imp fun _ _ hs' => ⟨hs'.good, hs'.back⟩
  · rw [if_neg hp]
    exact ⟨h, nofun⟩

/-- Every sequence of operations keeps it. -/
theorem run_spec (init : Fin n) (xs : List (Fin n × Op)) (h : Good W s 0 0)
    (hE : E .initExiting) : Ends (run init xs s) (fun _ s' => Good W s' 0 0) E := by
  induction xs generalizing s with
  | nil => exact h
  | cons x xs ih =>
    rw [run]
    exact Ends.bind (step_spec init x h hE) fun _ s' hs' => ih hs'.1

end Vm

end TrinityXv6
