import TrinityXv6.Vm.Contents
import TrinityXv6.Vm.ProcessSpec

/-!
# Leaving the contents out

The functions of `TrinityXv6.Vm.Contents`, without the contents of pages, are those of
`TrinityXv6.Vm.Paging` and `TrinityXv6.Vm.Process`. So what has been proved of the latter holds of
the former.
-/

namespace TrinityXv6

namespace Vm

open Command

variable {n : ℕ} {α β : Type} {W : Ram} {k : Kmem} {F : Multiset ℕ} {E : Panic → Prop}

/-! ## Address spaces -/

/-- `Frames.newPage` without contents. -/
def newPage (t : Table) (va : ℕ) (perm : Perm) : VM (Option ℕ × Table) := do
  let mem ← kalloc
  match mem with
  | none => pure (none, t)
  | some mem => do
    let r ← mappages t va pgsize mem perm
    if r.1 then pure (some mem, r.2)
    else do
      kfree mem
      pure (none, r.2)

/-- Code that goes on with the new page, or after the failure to get one. -/
theorem newPage_bind (t : Table) (va : ℕ) (perm : Perm) (c : Table → VM β) (d : Table → VM β)
    (k : Kmem) :
    (newPage t va perm >>= fun r => match r.1 with
      | none => d r.2
      | some _ => c r.2) k =
    (kalloc >>= fun mem => match mem with
      | none => d t
      | some mem => mappages t va pgsize mem perm >>= fun r =>
        if r.1 then c r.2 else kfree mem >>= fun _ => d r.2) k := by
  rw [newPage, ← bind_bind]
  cases hk : kalloc k with
  | error e => rw [bind_of_error hk, bind_of_error hk]
  | ok x =>
    rw [bind_of_ok hk, bind_of_ok hk]
    cases x.1 with
    | none => rfl
    | some mem =>
      dsimp only
      rw [← bind_bind]
      cases hm : mappages t va pgsize mem perm x.2 with
      | error e => rw [bind_of_error hm, bind_of_error hm]
      | ok r =>
        rw [bind_of_ok hm, bind_of_ok hm]
        cases r.1.1 with
        | true => rfl
        | false =>
          rw [if_neg Bool.false_ne_true, if_neg Bool.false_ne_true, ← bind_bind]
          rfl

/-- `Frames.touch` without contents: whether the access is allowed. -/
def touch (write : Bool) (t : Table) (psz va : ℕ) : VM (Bool × Table) :=
  match Frames.translate write t va with
  | some _ => pure (true, t)
  | none => do
    let r ← vmfault t psz va
    match r.1 with
    | none => pure (false, r.2)
    | some _ => pure ((Frames.translate write r.2 va).isSome, r.2)

theorem touch_spec {write : Bool} {t : Table} {psz va : ℕ} (hsz : psz ≤ Vm.trapframe)
    (h : Books W k (t.pages + F)) :
    Ends (touch write t psz va k) (fun r k' => Books W k' (r.2.pages + F) ∧
      Extends (pgs psz) t.map r.2.map) E := by
  rw [touch]
  cases Frames.translate write t va with
  | some pa => exact ⟨h, .refl _ _⟩
  | none =>
    refine Ends.bind (vmfault_spec hsz h) fun r k' hr => ?_
    obtain ⟨hb, he, -⟩ := hr
    cases r.1 with
    | none => exact ⟨hb, he⟩
    | some pa => exact ⟨hb, he⟩

namespace Frames

variable (f : Frames)

theorem onFree_refines (c : VM α) : Refines kmem id (onFree c f) (c f.kmem) :=
  zoom_refines (fun _ => rfl) c

theorem kalloc_refines : Refines kmem id (kalloc f) (Vm.kalloc f.kmem) := by
  refine (onFree_refines f _).then fun x f' => ?_
  cases x with
  | none => rfl
  | some x => rfl

theorem mappages_refines (t : Table) (va size pa : ℕ) (perm : Perm) :
    Refines kmem id (mappages t va size pa perm f) (Vm.mappages t va size pa perm f.kmem) :=
  (onFree_refines f _).then fun _ _ => rfl

theorem newPage_refines (t : Table) (va : ℕ) (c : (ℕ → Page) → Page) (perm : Perm) :
    Refines kmem id (newPage t va c perm f) (Vm.newPage t va perm f.kmem) := by
  refine (kalloc_refines f).bind fun x f₁ _ => ?_
  cases x with
  | none => rfl
  | some x =>
    dsimp only [id]
    rw [setPage, modify_bind]
    refine (mappages_refines _ t va pgsize x perm).bind fun r f₂ _ => ?_
    dsimp only [id]
    split_ifs
    · rfl
    · exact (onFree_refines f₂ _).bind fun _ _ _ => rfl

theorem uvmallocFrom_refines (oldsz newsz : ℕ) (perm : Perm) (n : ℕ) (t : Table) (a : ℕ) :
    Refines kmem id (uvmallocFrom oldsz newsz perm n t a f)
      (Vm.uvmallocFrom oldsz newsz perm n t a f.kmem) := by
  induction n generalizing t a f with
  | zero => rfl
  | succ n ih =>
    have hnew : Vm.uvmallocFrom oldsz newsz perm (n + 1) t a f.kmem = _ :=
      (newPage_bind t a perm (fun t => Vm.uvmallocFrom oldsz newsz perm n t (a + pgsize))
        (fun t => uvmallocUndo t a oldsz) f.kmem).symm
    rw [hnew]
    refine (newPage_refines f t a _ perm).bind fun r f' _ => ?_
    obtain ⟨x, t'⟩ := r
    cases x with
    | none => exact onFree_refines f' _
    | some x => exact ih f' t' (a + pgsize)

theorem uvmalloc_refines (t : Table) (oldsz newsz : ℕ) (w x : Bool) :
    Refines kmem id (uvmalloc t oldsz newsz w x f) (Vm.uvmalloc t oldsz newsz w x f.kmem) := by
  rw [uvmalloc, Vm.uvmalloc]
  split_ifs
  · rfl
  · exact uvmallocFrom_refines f ..

theorem uvmcopyFrom_refines (old : Table) (n : ℕ) (new : Table) (i : ℕ) :
    Refines kmem id (uvmcopyFrom old n new i f) (Vm.uvmcopyFrom old n new i f.kmem) := by
  induction n generalizing new i f with
  | zero => rfl
  | succ n ih =>
    rw [uvmcopyFrom, Vm.uvmcopyFrom]
    refine (onFree_refines f _).bind fun r f' _ => ?_
    dsimp only [id]
    split_ifs
    · cases r.2.pte i with
      | none => exact ih f' new (i + pgsize)
      | some l =>
        have hnew := newPage_bind new i l.perm (fun t => Vm.uvmcopyFrom old n t (i + pgsize))
          (fun t => uvmcopyErr t i) f'.kmem
        refine Eq.trans hnew.symm ?_
        refine (newPage_refines f' new i _ l.perm).bind fun m f'' _ => ?_
        obtain ⟨x, t⟩ := m
        cases x with
        | none => exact onFree_refines f'' _
        | some x => exact ih f'' t (i + pgsize)
    · exact ih f' new (i + pgsize)

theorem vmfault_refines (t : Table) (psz va : ℕ) :
    Refines kmem id (vmfault t psz va f) (Vm.vmfault t psz va f.kmem) := by
  rw [vmfault, Vm.vmfault]
  split_ifs
  · rfl
  · refine (onFree_refines f _).bind fun mapped f' _ => ?_
    dsimp only [id]
    split_ifs
    · rfl
    · exact newPage_refines f' ..

theorem userPage_refines (t : Table) (psz va : ℕ) :
    Refines kmem id (userPage t psz va f) (Vm.userPage t psz va f.kmem) := by
  refine (onFree_refines f _).bind fun x f' _ => ?_
  cases x with
  | none => exact vmfault_refines f' t psz va
  | some pa => rfl

theorem copyoutFrom_refines (psz turns : ℕ) (t : Table) (dstva : ℕ) (src : List UInt8) :
    Refines kmem id (copyoutFrom psz turns t dstva src f)
      (Vm.copyoutFrom psz turns t dstva src.length f.kmem) := by
  induction turns generalizing t dstva src f with
  | zero => rfl
  | succ turns ih =>
    rw [copyoutFrom, Vm.copyoutFrom]
    split_ifs
    · rfl
    · rfl
    · refine (userPage_refines f t psz _).bind fun r f' _ => ?_
      obtain ⟨x, t'⟩ := r
      cases x with
      | none => rfl
      | some pa0 =>
        refine (onFree_refines f' _).bind fun found f'' _ => ?_
        dsimp only [id]
        split_ifs
        · rw [setPage, modify_bind, ← List.length_drop]
          exact ih _ t' (pgrounddown dstva + pgsize) _
        · rfl
        · rfl

theorem copyinFrom_refines (psz turns : ℕ) (t : Table) (dst : List UInt8) (srcva len : ℕ) :
    Refines kmem (Prod.map Prod.fst id) (copyinFrom psz turns t dst srcva len f)
      (Vm.copyinFrom psz turns t srcva len f.kmem) := by
  induction turns generalizing t dst srcva len f with
  | zero => rfl
  | succ turns ih =>
    rw [copyinFrom, Vm.copyinFrom]
    split_ifs
    · rfl
    · refine (userPage_refines f t psz _).bind fun r f' _ => ?_
      obtain ⟨x, t'⟩ := r
      cases x with
      | none => rfl
      | some pa0 => exact ih f' t' _ _ _

/-- The string that is read ends somewhere. -/
theorem copyinstrFrom_refines (psz turns : ℕ) (t : Table) (dst : List UInt8) (srcva max : ℕ) :
    ∃ nul, Refines kmem (Prod.map Prod.fst id) (copyinstrFrom psz turns t dst srcva max f)
      (Vm.copyinstrFrom psz turns t srcva max nul f.kmem) := by
  induction turns generalizing t dst srcva max f with
  | zero => exact ⟨0, rfl⟩
  | succ turns ih =>
    rw [copyinstrFrom]
    by_cases hmax : max = 0
    · refine ⟨0, ?_⟩
      rw [Vm.copyinstrFrom, if_pos hmax, if_pos hmax]
      rfl
    · rw [if_neg hmax]
      have hpage := userPage_refines f t psz (pgrounddown srcva)
      cases hr : userPage t psz (pgrounddown srcva) f with
      | error e =>
        rw [hr] at hpage
        refine ⟨0, ?_⟩
        rw [Vm.copyinstrFrom, if_neg hmax, bind_of_error hr, bind_of_error hpage]
        rfl
      | ok r =>
        rw [hr] at hpage
        obtain ⟨⟨x, t'⟩, f'⟩ := r
        rw [bind_of_ok hr]
        cases x with
        | none =>
          refine ⟨0, ?_⟩
          rw [Vm.copyinstrFrom, if_neg hmax, bind_of_ok hpage]
          rfl
        | some pa0 =>
          dsimp only
          rw [get_bind]
          split_ifs with hnul
          · refine ⟨0, ?_⟩
            rw [Vm.copyinstrFrom, if_neg hmax, bind_of_ok hpage]
            have hpos : 0 < min max (pgsize - (srcva - pgrounddown srcva)) := by
              refine Nat.pos_of_ne_zero fun hz => ?_
              rw [hz] at hnul
              cases hnul
            rw [if_pos hpos]
            rfl
          · obtain ⟨nul, hnext⟩ := ih f' t' (dst ++ (f'.data pa0).bytes (srcva - pgrounddown srcva)
              (min max (pgsize - (srcva - pgrounddown srcva)))) (pgrounddown srcva + pgsize)
              (max - (pgsize - (srcva - pgrounddown srcva)))
            refine ⟨pgsize - (srcva - pgrounddown srcva) + nul, ?_⟩
            rw [Vm.copyinstrFrom, if_neg hmax, bind_of_ok hpage]
            rw [if_neg (by omega), Nat.add_sub_cancel_left]
            exact hnext

theorem touch_refines (write : Bool) (t : Table) (psz va : ℕ) :
    Refines kmem (Prod.map Option.isSome id) (touch write t psz va f)
      (Vm.touch write t psz va f.kmem) := by
  rw [touch, Vm.touch]
  cases translate write t va with
  | some pa => rfl
  | none =>
    refine (vmfault_refines f t psz va).bind fun r f' _ => ?_
    obtain ⟨x, t'⟩ := r
    cases x with
    | none => rfl
    | some pa => rfl

theorem load_refines (t : Table) (psz va : ℕ) :
    Refines kmem (Prod.map Option.isSome id) (load t psz va f)
      (Vm.touch false t psz va f.kmem) := by
  refine (touch_refines f false t psz va).then fun r f' => ?_
  obtain ⟨x, t'⟩ := r
  cases x with
  | none => rfl
  | some pa => rfl

theorem store_refines (t : Table) (psz va : ℕ) (b : UInt8) :
    Refines kmem id (store t psz va b f) (Vm.touch true t psz va f.kmem) := by
  refine (touch_refines f true t psz va).then fun r f' => ?_
  obtain ⟨x, t'⟩ := r
  cases x with
  | none => rfl
  | some pa => rfl

end Frames

/-! ## Processes -/

namespace Machine

variable (m : Machine n) {c' : Table → ℕ → VM (β × Table)} {g : α → β}

theorem onMem_refines (c : MM n α) : Refines mem id (onMem c m) (c m.mem) :=
  zoom_refines (fun _ => rfl) c

/-- Code on a page table, without the contents. -/
theorem onTable_refines {p : Fin n} {c : Table → ℕ → FM (α × Table)}
    (hc : ∀ t sz, Refines Frames.kmem (Prod.map g id) (c t sz m.frames) (c' t sz m.mem.kmem)) :
    Refines mem g (onTable p c m) (Vm.onTable p c' m.mem) := by
  rw [onTable, Vm.onTable, get_bind, get_bind]
  cases (m.mem.proc p).pagetable with
  | none => rfl
  | some t =>
    have hr : Refines mem (Prod.map g id) (onFrames (c t (m.mem.proc p).sz) m)
        (onKmem (c' t (m.mem.proc p).sz) m.mem) := by
      have hct := hc t (m.mem.proc p).sz
      rw [Refines] at hct ⊢
      rw [onKmem, hct, onFrames, zoom]
      cases c t (m.mem.proc p).sz m.frames with
      | ok r => rfl
      | error e => rfl
    refine hr.bind fun r m' _ => ?_
    exact (onMem_refines m' _).bind fun _ _ _ => rfl

theorem growprocUp_refines (p : Fin n) (bytes : ℕ) :
    Refines mem id (growprocUp p bytes m) (Vm.growprocUp p bytes m.mem) := by
  rw [growprocUp, Vm.growprocUp, get_bind, get_bind]
  split_ifs
  · rfl
  · refine (onTable_refines m (g := id) fun t sz => Frames.uvmalloc_refines m.frames ..).bind
      fun sz m' _ => ?_
    dsimp only [id]
    split_ifs
    · rfl
    · exact (onMem_refines m' _).bind fun _ _ _ => rfl

theorem growproc_refines (p : Fin n) (k : Int32) :
    Refines mem id (growproc p k m) (Vm.growproc p k m.mem) := by
  rw [growproc, Vm.growproc]
  split_ifs
  · exact growprocUp_refines m p _
  · exact onMem_refines m _
  · rfl

theorem sysSbrk_refines (p : Fin n) (k t : Int32) :
    Refines mem Option.isSome (sysSbrk p k t m) (Vm.sysSbrk p k t m.mem) := by
  rw [sysSbrk, get_bind]
  split_ifs with heager
  · rw [Vm.sysSbrk, if_pos heager]
    refine (growproc_refines m p k).then fun ok m' => ?_
    cases ok with
    | false => rfl
    | true => rfl
  · refine (onMem_refines m _).then fun ok m' => ?_
    cases ok with
    | false => rfl
    | true => rfl

theorem allocproc_refines :
    Refines mem (Option.map Prod.fst) (allocproc m) (Vm.allocproc m.mem) := by
  rw [allocproc, get_bind]
  refine (onMem_refines m _).then fun np m' => ?_
  cases np with
  | none => split_ifs <;> rfl
  | some q => split_ifs <;> rfl

theorem kforkCopy_refines (p q : Fin n) :
    Refines mem id (kforkCopy p q m) (Vm.kforkCopy p q m.mem) := by
  rw [kforkCopy, Vm.kforkCopy, get_bind, get_bind]
  cases (m.mem.proc p).pagetable with
  | none => rfl
  | some old => exact onTable_refines m fun t _ => Frames.uvmcopyFrom_refines m.frames ..

theorem kfork_refines (p : Fin n) :
    Refines mem (fun x => Res.of x.isSome) (kfork p m) (Vm.kfork p m.mem) := by
  refine (allocproc_refines m).bind fun np m' _ => ?_
  cases np with
  | none => rfl
  | some x =>
    refine (kforkCopy_refines m' p x.1).bind fun ok m'' _ => ?_
    cases ok with
    | false => exact (onMem_refines m'' _).bind fun _ _ _ => rfl
    | true =>
      have hrest : Refines mem (fun x => Res.of x.isSome)
          ((onMem (kforkRest p x.1) >>= fun _ => pure (some x.2)) m'')
          ((kforkRest p x.1 >>= fun _ => pure Res.done) m''.mem) :=
        (onMem_refines m'' _).bind fun _ _ _ => rfl
      rw [kforkRest, ← bind_bind, get_bind, ← bind_bind, ← bind_bind] at hrest
      exact hrest

/-! ## What holds between calls -/

variable {m}

/-- Code that only maps missing pages of the process. -/
theorem access_good {p : Fin n} {c : Table → ℕ → FM (α × Table)}
    (h : Good W m.mem 0 0) (hp : (m.mem.proc p).stage = .live)
    (hc : ∀ t sz, Refines Frames.kmem (Prod.map g id) (c t sz m.frames) (c' t sz m.mem.kmem))
    (hc' : ∀ t sz k F, sz ≤ Vm.trapframe → Books W k (t.pages + F) → Ends (c' t sz k)
      (fun r k' => Books W k' (r.2.pages + F) ∧ Extends (pgs sz) t.map r.2.map) E) :
    Ends (onTable p c m) (fun _ m' => Good W m'.mem 0 0 ∧ (m'.mem.proc p).stage = .live) E := by
  refine ((onTable_refines m hc).ends (access_spec h hp hc')).imp fun _ m' hm' => ⟨hm'.1, ?_⟩
  rw [hm'.2.1.stage, hp]

theorem exits_good {init p : Fin n} (h : Good W m.mem 0 0) (hp : (m.mem.proc p).stage = .live) :
    Ends (exits init p m) (fun _ m' => Good W m'.mem 0 0) E := by
  rw [exits]
  split_ifs with hinit
  · exact h
  · have hexit := kexit_spec (E := E) init h hp fun hi => absurd hi hinit
    exact Ends.bind ((onMem_refines m _).ends hexit) fun _ m' hm' => hm'.good

/-- **Every operation keeps what holds between calls, and none panics.** -/
theorem step_good (init : Fin n) (x : Fin n × Op) (h : Good W m.mem 0 0) :
    Ends (step init x m) (fun _ m' => Good W m'.mem 0 0) E := by
  rw [step, get_bind]
  split_ifs with hp
  swap
  · exact h
  obtain ⟨p, op⟩ := x
  cases op with
  | load va =>
    refine Ends.bind (access_good h hp (fun t sz => Frames.load_refines m.frames t sz va)
      fun _ _ _ _ => touch_spec) fun r m' hm' => ?_
    cases r with
    | none => exact exits_good hm'.1 hm'.2
    | some b => exact hm'.1
  | store va b =>
    refine Ends.bind (access_good (g := id) h hp
      (fun t sz => Frames.store_refines m.frames t sz va b) fun _ _ _ _ => touch_spec)
      fun r m' hm' => ?_
    split_ifs
    · exact hm'.1
    · exact exits_good hm'.1 hm'.2
  | copyin srcva len =>
    exact Ends.bind (access_good h hp
      (fun t sz => Frames.copyinFrom_refines m.frames sz len t [] srcva len)
      fun _ _ _ _ => copyin_spec) fun r m' hm' => hm'.1
  | copyout dstva src =>
    exact Ends.bind (access_good (g := id) h hp
      (fun t sz => Frames.copyoutFrom_refines m.frames sz _ t dstva src)
      fun _ _ _ _ => copyout_spec) fun r m' hm' => hm'.1
  | copyinstr srcva max =>
    choose nul hnul using fun t sz => Frames.copyinstrFrom_refines m.frames sz max t [] srcva max
    exact Ends.bind (access_good h hp hnul fun _ _ _ _ => copyinstr_spec) fun r m' hm' => hm'.1
  | sysSbrk k t =>
    exact Ends.bind ((sysSbrk_refines m p k t).ends (sysSbrk_spec h hp k t))
      fun _ m' hm' => hm'.1
  | kfork => exact Ends.bind ((kfork_refines m p).ends (kfork_spec h hp)) fun _ m' hm' => hm'.good

end Machine

end Vm

end TrinityXv6
