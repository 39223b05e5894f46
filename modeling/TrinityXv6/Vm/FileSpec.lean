import Mathlib.Algebra.Group.Pi.Lemmas
import Mathlib.Data.Fintype.BigOperators
import TrinityXv6.Vm.ExecSpec

/-!
# Who holds the pages

The pages that are not free are held by processes and pipes. When a pipe is freed is decided by the
file table: each open end of a pipe is one file, and the reference count of a file is the number of
descriptors that name it. In the middle of a call the count may be ahead of the descriptors or
behind them; `hand` says by how much.
-/

namespace TrinityXv6

namespace Vm

open Command
open List
open Function (update_self update_of_ne update_eq_self update_idem)

variable {n : ℕ} {α : Type} {W : Ram} {s s' : Mem n} {H : Multiset ℕ} {E : Panic → Prop}

@[simp] theorem setProc_self (p : Fin n) (v : Proc n) : (s.setProc p v).proc p = v :=
  update_self ..

variable {p : Fin n} {f₀ f₁ : Fin nfile} {file : Fin nfile → File} {fd : Fin nofile}
variable {l pipes : List Pipe} {H' : Multiset ℕ} {x : Pipe} {v : Proc n} {pi : ℕ}

theorem setProc_of_ne {q : Fin n} (v : Proc n) (h : q ≠ p) : (s.setProc p v).proc q = s.proc q :=
  update_of_ne h ..

@[simp] theorem setFile_self (f : Fin nfile) (v : File) : (s.setFile f v).file f = v :=
  update_self ..

theorem setFile_of_ne {f g : Fin nfile} (v : File) (h : g ≠ f) :
    (s.setFile f v).file g = s.file g :=
  update_of_ne h ..

/-! ## Pages -/

/-- The pages that a process holds. -/
def Proc.pages (v : Proc n) : Multiset ℕ :=
  v.trapframe.elim 0 (fun x => {x}) + v.pagetable.elim 0 Table.pages

/-- The pages that pipes are in. -/
def pipePages (l : List Pipe) : Multiset ℕ := (l.map Pipe.page : List ℕ)

/-- The pages that processes and pipes hold. -/
def Mem.pages (s : Mem n) : Multiset ℕ := ∑ p, (s.proc p).pages + pipePages s.pipes

/-- The pages of one process, and the others. -/
theorem pages_split (s : Mem n) (p : Fin n) :
    ∃ rest, s.pages = (s.proc p).pages + rest ∧ ∀ v, (s.setProc p v).pages = v.pages + rest := by
  refine ⟨∑ q ∈ Finset.univ.erase p, (s.proc q).pages + pipePages s.pipes, ?_, fun v => ?_⟩
  · rw [Mem.pages, ← Finset.add_sum_erase _ _ (Finset.mem_univ p), add_assoc]
  · have hrest : ∑ q ∈ Finset.univ.erase p, ((s.setProc p v).proc q).pages =
        ∑ q ∈ Finset.univ.erase p, (s.proc q).pages := by
      refine Finset.sum_congr rfl fun q hq => ?_
      rw [setProc_of_ne v (Finset.ne_of_mem_erase hq)]
    rw [Mem.pages, ← Finset.add_sum_erase _ _ (Finset.mem_univ p), hrest, add_assoc, setProc_self]
    rfl

theorem pages_setProc_of_eq_zero (h : (s.proc p).pages = 0) :
    (s.setProc p v).pages = v.pages + s.pages := by
  obtain ⟨rest, hrest, hput⟩ := pages_split s p
  rw [hput, hrest, h, zero_add]

theorem onKmem_spec {c : VM α} {Q : α → Kmem → Prop} (h : Ends (c s.kmem) Q E) :
    Ends (onKmem c s) (fun a s' => ∃ k, s' = { s with kmem := k } ∧ Q a k) E := by
  rw [onKmem]
  cases hc : c s.kmem with
  | ok r =>
    rw [hc] at h
    exact ⟨r.2, rfl, h⟩
  | error e =>
    rw [hc] at h
    exact h

/-! ## Descriptors -/

/-- The descriptors of all processes. -/
abbrev Ofiles (n : ℕ) := Fin n → Fin nofile → Option (Fin nfile)

/-- The descriptors. -/
def Mem.ofiles (s : Mem n) : Ofiles n := fun p => (s.proc p).ofile

/-- Whether a descriptor names the file, as a number. -/
def names (f : Fin nfile) (o : Option (Fin nfile)) : ℤ := if o = some f then 1 else 0

/-- How many descriptors name a file. -/
def uses (o : Ofiles n) (f : Fin nfile) : ℤ := ∑ p, ∑ fd, names f (o p fd)

/-- Change one descriptor. -/
def Ofiles.set (o : Ofiles n) (p : Fin n) (fd : Fin nofile) (x : Option (Fin nfile)) : Ofiles n :=
  Function.update o p (Function.update (o p) fd x)

theorem uses_set (o : Ofiles n) (p : Fin n) (fd : Fin nofile) (x : Option (Fin nfile))
    (f : Fin nfile) : uses (o.set p fd x) f = uses o f - names f (o p fd) + names f x := by
  have hrow := Radix.sum_update_add Finset.univ o (fun r => ∑ fd, names f (r fd))
    (Finset.mem_univ p) (Function.update (o p) fd x)
  have hcell := Radix.sum_update_add Finset.univ (o p) (names f) (Finset.mem_univ fd) x
  unfold uses Ofiles.set
  omega

theorem names_some (f g : Fin nfile) : names g (some f) = (Pi.single f 1 : Fin nfile → ℤ) g := by
  rw [names, Pi.single_apply]
  exact if_congr ⟨fun h => (Option.some.inj h).symm, fun h => congrArg some h.symm⟩ rfl rfl

variable {o : Ofiles n} {f : Fin nfile}

/-- A free descriptor is used for a file. -/
theorem uses_set_some (h : o p fd = none) (f g : Fin nfile) :
    uses (o.set p fd (some f)) g = uses o g + (Pi.single f 1 : Fin nfile → ℤ) g := by
  rw [uses_set, h, names_some, names, if_neg nofun, sub_zero]

/-- A descriptor is freed. -/
theorem uses_set_none (h : o p fd = some f) (g : Fin nfile) :
    uses (o.set p fd none) g = uses o g - (Pi.single f 1 : Fin nfile → ℤ) g := by
  rw [uses_set, h, names_some, names, if_neg nofun, add_zero]

theorem uses_nonneg (o : Ofiles n) (f : Fin nfile) : 0 ≤ uses o f := by
  refine Finset.sum_nonneg fun p _ => Finset.sum_nonneg fun fd _ => ?_
  unfold names
  split_ifs <;> decide

/-- A file that a descriptor names is used. -/
theorem one_le_uses (h : o p fd = some f) : 1 ≤ uses o f := by
  have hset := uses_set_none h f
  have hpos := uses_nonneg (o.set p fd none) f
  rw [Pi.single_eq_same] at hset
  omega

/-- A file that is used is named by a descriptor. -/
theorem exists_of_one_le_uses (h : 1 ≤ uses o f) : ∃ p fd, o p fd = some f := by
  by_contra hno
  push Not at hno
  have hzero : uses o f = 0 :=
    Finset.sum_eq_zero fun p _ => Finset.sum_eq_zero fun fd _ => if_neg (hno p fd)
  omega

/-! ## Files and pipes -/

/-- Whether an end of a pipe is open. -/
def Pipe.isOpen (x : Pipe) (writable : Bool) : Bool :=
  if writable then x.writeopen else x.readopen

/-- The file table agrees with the descriptors, up to `hand`, and with the pipes. -/
structure Files (file : Fin nfile → File) (pipes : List Pipe) (o : Ofiles n)
    (hand : Fin nfile → ℤ) : Prop where
  count : ∀ f, ((file f).ref : ℤ) = uses o f + hand f
  idle : ∀ f, (file f).ref = 0 → (file f).kind = .none
  once : ∀ f g pi w, (file f).kind = .pipe pi w → (file g).kind = .pipe pi w → f = g
  known : ∀ f pi w, (file f).kind = .pipe pi w → ∃ x ∈ pipes, x.page = pi
  ends : ∀ x ∈ pipes, ∀ w, x.isOpen w = true ↔ ∃ f, (file f).kind = .pipe x.page w
  used : ∀ x ∈ pipes, ∃ w, x.isOpen w = true

/-- The counts change, but the ends of pipes stay. -/
theorem Files.of_kind {file' : Fin nfile → File} {o' : Ofiles n} {hand hand' : Fin nfile → ℤ}
    (h : Files file pipes o hand)
    (hkind : ∀ f pi w, (file' f).kind = .pipe pi w ↔ (file f).kind = .pipe pi w)
    (hcount : ∀ f, ((file' f).ref : ℤ) = uses o' f + hand' f)
    (hidle : ∀ f, (file' f).ref = 0 → (file' f).kind = .none) : Files file' pipes o' hand' := by
  refine ⟨hcount, hidle, fun f g pi w => ?_, fun f pi w => ?_, fun x hx w => ?_, h.used⟩
  · rw [hkind, hkind]
    exact h.once f g pi w
  · rw [hkind]
    exact h.known f pi w
  · simp only [hkind]
    exact h.ends x hx w

/-- What holds in the middle of a call that has the pages `H` in its hands. -/
structure Inv (W : Ram) (s : Mem n) (hand : Fin nfile → ℤ) (H : Multiset ℕ) : Prop where
  books : Books W s.kmem (s.pages + H)
  files : Files s.file s.pipes s.ofiles hand

variable {hand : Fin nfile → ℤ} {f : Fin nfile}

theorem ofiles_setProc (p : Fin n) (v : Proc n) :
    (s.setProc p v).ofiles = Function.update s.ofiles p v.ofile := by
  funext q
  by_cases hq : q = p
  · rw [hq, update_self, Mem.ofiles, setProc_self]
  · rw [update_of_ne hq, Mem.ofiles, setProc_of_ne v hq]
    rfl

theorem ofiles_setProc_same (ho : v.ofile = (s.proc p).ofile) :
    (s.setProc p v).ofiles = s.ofiles := by
  rw [ofiles_setProc, ho]
  exact update_eq_self p s.ofiles

section

variable (h : Inv W s hand H)
include h

/-- The descriptors and the pages of one process change together with `hand` and `H`. -/
theorem Inv.setProc {hand' : Fin nfile → ℤ} (hp : v.pages + H' = (s.proc p).pages + H)
    (ho : ∀ f, uses (Function.update s.ofiles p v.ofile) f + hand' f = uses s.ofiles f + hand f) :
    Inv W (s.setProc p v) hand' H' := by
  obtain ⟨rest, hrest, hput⟩ := pages_split s p
  refine ⟨h.books.of_eq ?_, ?_⟩
  · rw [hput, hrest]
    calc (s.proc p).pages + rest + H = (s.proc p).pages + H + rest := by abel
      _ = v.pages + rest + H' := by rw [← hp]; abel
  · rw [ofiles_setProc]
    refine h.files.of_kind (fun _ _ _ => Iff.rfl) (fun f => ?_) h.files.idle
    rw [ho f]
    exact h.files.count f

/-- Nothing about pages or descriptors changes. -/
theorem Inv.setProc_same (hp : v.pages = (s.proc p).pages) (ho : v.ofile = (s.proc p).ofile) :
    Inv W (s.setProc p v) hand H := by
  refine h.setProc (by rw [hp]) fun f => ?_
  rw [← ofiles_setProc, ofiles_setProc_same ho]

/-- One process and the free pages change, and the descriptors do not. -/
theorem Inv.replace {k : Kmem} (ho : v.ofile = (s.proc p).ofile)
    (hb : Books W k ((s.setProc p v).pages + H')) :
    Inv W (({ s with kmem := k } : Mem n).setProc p v) hand H' := by
  refine ⟨hb, ?_⟩
  rw [ofiles_setProc_same (s := { s with kmem := k }) ho]
  exact h.files

/-- Code on the page table of a process, which accounts for the pages of that table. -/
theorem onTable_spec {c : Table → ℕ → VM (α × Table)} {t : Table} {Q : α → (ℕ → Option Leaf) → Prop}
    (ht : (s.proc p).pagetable = some t)
    (hc : ∀ F, Books W s.kmem (t.pages + F) → Ends (c t (s.proc p).sz s.kmem)
      (fun r k' => Books W k' (r.2.pages + F) ∧ Q r.1 r.2.map) E) :
    Ends (onTable p c s) (fun a s' => ∃ k' t',
      s' = ({ s with kmem := k' } : Mem n).setProc p { s.proc p with pagetable := some t' } ∧
      Inv W s' hand H ∧ Q a t'.map) E := by
  obtain ⟨rest, hrest, hput⟩ := pages_split s p
  have hbook : Books W s.kmem
      (t.pages + ((s.proc p).trapframe.elim 0 (fun x => {x}) + rest + H)) := by
    refine h.books.of_eq ?_
    rw [hrest, Proc.pages, ht, Option.elim_some]
    abel
  rw [onTable, get_bind, ht]
  refine Ends.bind (onKmem_spec (hc _ hbook)) fun r s₁ h₁ => ?_
  obtain ⟨k', rfl, hb', hq⟩ := h₁
  refine ⟨k', r.2, rfl, h.replace rfl (hb'.of_eq ?_), hq⟩
  rw [hput, Proc.pages, Option.elim_some]
  abel

theorem Inv.kmem {k : Kmem} (hb : Books W k (s.pages + H')) : Inv W { s with kmem := k } hand H' :=
  ⟨hb, h.files⟩

/-- `kalloc` in the middle of a call. -/
theorem Inv.kalloc : Ends (onKmem kalloc s) (fun o s' => ∃ k, s' = { s with kmem := k } ∧
      Inv W s' hand (o.elim 0 (fun x => {x}) + H)) E := by
  refine (onKmem_spec (kalloc_spec h.books)).imp fun o s' hs' => ?_
  obtain ⟨k, rfl, hb⟩ := hs'
  exact ⟨k, rfl, h.kmem (hb.of_eq (by abel))⟩

/-- The pipes are in different pages. -/
theorem Inv.nodup : (pipePages s.pipes).Nodup := by
  have hle : pipePages s.pipes ≤ W.all := by
    rw [← h.books.sum, Mem.pages]
    exact (Multiset.le_add_left _ _).trans ((Multiset.le_add_right _ _).trans
      (Multiset.le_add_left _ _))
  exact Multiset.nodup_of_le hle W.nodup

/-- One file changes, but not whether it is the end of a pipe. -/
theorem Inv.setFile {v : File} {d : ℤ} (hr : (v.ref : ℤ) = (s.file f).ref + d)
    (hkind : ∀ pi w, v.kind = .pipe pi w ↔ (s.file f).kind = .pipe pi w)
    (hidle : v.ref = 0 → v.kind = .none) : Inv W (s.setFile f v) (hand + Pi.single f d) H := by
  refine ⟨h.books, h.files.of_kind (fun g pi w => ?_) (fun g => ?_) fun g hg => ?_⟩
  · by_cases hgf : g = f
    · rw [hgf, setFile_self]
      exact hkind pi w
    · rw [setFile_of_ne _ hgf]
  · have hcount := h.files.count g
    by_cases hgf : g = f
    · rw [hgf] at hcount
      rw [hgf, setFile_self, Pi.add_apply, Pi.single_eq_same]
      show (v.ref : ℤ) = uses s.ofiles f + (hand f + d)
      omega
    · rw [setFile_of_ne _ hgf, Pi.add_apply, Pi.single_eq_of_ne hgf, add_zero]
      exact hcount
  · by_cases hgf : g = f
    · rw [hgf, setFile_self] at hg ⊢
      exact hidle hg
    · rw [setFile_of_ne _ hgf] at hg ⊢
      exact h.files.idle g hg

theorem filealloc_spec :
    Ends (filealloc s) (fun o s' => match o with
      | none => s' = s
      | some f => s.file f = ⟨0, .none⟩ ∧ s' = s.setFile f ⟨1, .none⟩ ∧
          Inv W s' (hand + Pi.single f 1) H) E := by
  rw [filealloc, get_bind]
  cases hf : (List.finRange nfile).find? fun f => (s.file f).ref = 0 with
  | none => rfl
  | some f =>
    have hzero : (s.file f).ref = 0 := of_decide_eq_true (List.find?_some hf :)
    have hkind := h.files.idle f hzero
    refine ⟨congrArg₂ File.mk hzero hkind, ?_, ?_⟩
    · show s.setFile f ⟨1, (s.file f).kind⟩ = _
      rw [hkind]
    · refine h.setFile ?_ (fun _ _ => Iff.rfl) nofun
      rw [hzero]
      rfl

theorem filedup_spec (hf : 0 < (s.file f).ref) :
    Ends (filedup f s) (fun _ s' => s' = s.setFile f { s.file f with ref := (s.file f).ref + 1 } ∧
      Inv W s' (hand + Pi.single f 1) H) E := by
  rw [filedup, get_bind, if_neg (by omega)]
  exact ⟨rfl, h.setFile (by push_cast; rfl) (fun _ _ => Iff.rfl) nofun⟩

theorem fdalloc_spec :
    Ends (fdalloc p f s) (fun o s' => match o with
      | none => s' = s
      | some fd => (s.proc p).ofile fd = none ∧
          s' = s.setProc p { s.proc p with
            ofile := Function.update (s.proc p).ofile fd (some f) } ∧
          Inv W s' (hand - Pi.single f 1) H) E := by
  rw [fdalloc, get_bind]
  cases hfd : (List.finRange nofile).find? fun fd => (s.proc p).ofile fd = none with
  | none => rfl
  | some fd =>
    have hnone : (s.proc p).ofile fd = none := of_decide_eq_true (List.find?_some hfd :)
    refine ⟨hnone, rfl, h.setProc rfl fun g => ?_⟩
    show uses (s.ofiles.set p fd (some f)) g + _ = _
    rw [uses_set_some (show s.ofiles p fd = none from hnone), Pi.sub_apply]
    omega

end

/-! ## Closing -/

/-- The file after one reference to it is gone. -/
def File.closed (v : File) : File := if 1 < v.ref then { v with ref := v.ref - 1 } else ⟨0, .none⟩

/-- The pipes after one end of one of them has been closed. -/
def shut (pi : ℕ) (writable : Bool) (l : List Pipe) : List Pipe :=
  match l.find? fun x => x.page = pi with
  | none => l
  | some x =>
    if (x.close writable).readopen = false ∧ (x.close writable).writeopen = false then
      l.filter fun x => x.page ≠ pi
    else l.map fun x => if x.page = pi then x.close writable else x

/-- The pipes after one reference to a file is gone. -/
def File.shut (v : File) (l : List Pipe) : List Pipe :=
  if 1 < v.ref then l else match v.kind with
    | .pipe pi writable => Vm.shut pi writable l
    | _ => l

theorem isOpen_close (x : Pipe) (w w' : Bool) :
    (x.close w).isOpen w' = if w' = w then false else x.isOpen w' := by
  cases w <;> cases w' <;> rfl

@[simp] theorem page_close (x : Pipe) (w : Bool) : (x.close w).page = x.page := by
  cases w <;> rfl

/-- Both ends are closed when neither is open. -/
theorem closed_iff (x : Pipe) :
    x.readopen = false ∧ x.writeopen = false ↔ ∀ w, x.isOpen w = false := by
  constructor
  · rintro ⟨hr, hw⟩ (_ | _)
    · exact hr
    · exact hw
  · intro h
    exact ⟨h false, h true⟩

/-- What closing an end does: the pipe is the only one in its page, and is gone or has one end
less. -/
theorem shut_cases (w : Bool) (hnd : (pipePages l).Nodup) (hx : x ∈ l) :
    (l.find? fun y => y.page = x.page) = some x ∧ (∀ y ∈ l, y.page = x.page → y = x) ∧
    ((∀ w', (x.close w).isOpen w' = false) ∧ shut x.page w l = l.filter (fun y => y.page ≠ x.page) ∨
      (∃ w', (x.close w).isOpen w' = true) ∧
        shut x.page w l = l.map fun y => if y.page = x.page then y.close w else y) := by
  have huniq : ∀ y ∈ l, y.page = x.page → y = x := fun y hy hp =>
    inj_on_of_nodup_map (Multiset.coe_nodup.mp hnd) hy hx hp
  have hfind : (l.find? fun y => y.page = x.page) = some x := by
    cases hf : l.find? fun y => y.page = x.page with
    | none => exact absurd (List.find?_eq_none.mp hf x hx) (by simp)
    | some y =>
      rw [huniq y (mem_of_find?_eq_some hf) (of_decide_eq_true (List.find?_some hf :))]
  refine ⟨hfind, huniq, ?_⟩
  by_cases hc : (x.close w).readopen = false ∧ (x.close w).writeopen = false
  · refine .inl ⟨(closed_iff _).mp hc, ?_⟩
    rw [shut, hfind]
    exact if_pos hc
  · refine .inr ⟨?_, ?_⟩
    · rw [closed_iff] at hc
      push Not at hc
      obtain ⟨w', hw'⟩ := hc
      exact ⟨w', Bool.eq_true_of_not_eq_false hw'⟩
    · rw [shut, hfind]
      exact if_neg hc

/-- The last reference to an end of a pipe is gone. -/
theorem Files.shut {w : Bool} (h : Files file pipes o hand) (hnd : (pipePages pipes).Nodup)
    (hf : (file f).kind = .pipe pi w) (href : (file f).ref = 1) :
    Files (Function.update file f ⟨0, .none⟩) (Vm.shut pi w pipes) o (hand - Pi.single f 1) := by
  obtain ⟨x, hx, rfl⟩ := h.known f pi w hf
  obtain ⟨-, huniq, hcases⟩ := shut_cases w hnd hx
  have hkind : ∀ g pi' w', (Function.update file f ⟨0, .none⟩ g).kind = .pipe pi' w' ↔
      g ≠ f ∧ (file g).kind = .pipe pi' w' := by
    intro g pi' w'
    by_cases hg : g = f
    · rw [hg, update_self]
      exact iff_of_false nofun fun hn => hn.1 rfl
    · rw [update_of_ne hg]
      exact ⟨fun hk => ⟨hg, hk⟩, fun hk => hk.2⟩
  -- the ends of the other pipes, and the other end of this one
  have hother : ∀ y w', y ∈ pipes → y.page ≠ x.page ∨ w' ≠ w →
      (y.isOpen w' = true ↔
        ∃ g, (Function.update file f ⟨0, .none⟩ g).kind = .pipe y.page w') := by
    intro y w' hy hne
    simp only [hkind]
    rw [h.ends y hy w']
    refine exists_congr fun g => ⟨fun hk => ⟨?_, hk⟩, fun hk => hk.2⟩
    rintro rfl
    rw [hf] at hk
    obtain ⟨hpage, hw⟩ := Kind.pipe.inj hk
    exact hne.elim (fun h => h hpage.symm) fun h => h hw.symm
  have hthis : ¬ ∃ g, (Function.update file f ⟨0, .none⟩ g).kind = .pipe x.page w := by
    rintro ⟨g, hg⟩
    obtain ⟨hne, hg⟩ := (hkind g _ _).mp hg
    exact hne (h.once g f _ _ hg hf)
  refine ⟨fun g => ?_, fun g hg => ?_, fun g g' pi' w' hg hg' => ?_, fun g pi' w' hg => ?_,
    fun y hy w' => ?_, fun y hy => ?_⟩
  · have hcount := h.count g
    by_cases hgf : g = f
    · rw [hgf, href] at hcount
      rw [hgf, update_self, Pi.sub_apply, Pi.single_eq_same]
      show ((0 : ℕ) : ℤ) = uses o f + (hand f - 1)
      omega
    · rw [update_of_ne hgf, Pi.sub_apply, Pi.single_eq_of_ne hgf, sub_zero]
      exact hcount
  · by_cases hgf : g = f
    · rw [hgf, update_self]
    · rw [update_of_ne hgf] at hg ⊢
      exact h.idle g hg
  · exact h.once g g' _ _ ((hkind _ _ _).mp hg).2 ((hkind _ _ _).mp hg').2
  · obtain ⟨hgf, hg'⟩ := (hkind _ _ _).mp hg
    obtain ⟨y, hy, rfl⟩ := h.known g _ _ hg'
    by_cases hyx : y.page = x.page
    · obtain rfl := huniq y hy hyx
      -- another file of the same pipe is its other end, which is open
      have hw : w' ≠ w := by
        rintro rfl
        exact hgf (h.once g f _ _ hg' hf)
      have hopen : (y.close w).isOpen w' = true := by
        rw [isOpen_close, if_neg hw]
        exact (h.ends y hy w').mpr ⟨g, hg'⟩
      rcases hcases with ⟨hclosed, -⟩ | ⟨-, hshut⟩
      · rw [hclosed w'] at hopen
        cases hopen
      · rw [hshut]
        exact ⟨y.close w, mem_map.mpr ⟨y, hy, if_pos rfl⟩, page_close y w⟩
    · rcases hcases with ⟨-, hshut⟩ | ⟨-, hshut⟩
      · rw [hshut]
        exact ⟨y, mem_filter.mpr ⟨hy, by simpa using hyx⟩, rfl⟩
      · rw [hshut]
        exact ⟨y, mem_map.mpr ⟨y, hy, if_neg hyx⟩, rfl⟩
  · rcases hcases with ⟨-, hshut⟩ | ⟨-, hshut⟩
    · rw [hshut] at hy
      obtain ⟨hy, hne⟩ := mem_filter.mp hy
      exact hother y w' hy (.inl (by simpa using hne))
    · rw [hshut] at hy
      obtain ⟨y₀, hy₀, rfl⟩ := mem_map.mp hy
      by_cases hpage : y₀.page = x.page
      · obtain rfl := huniq y₀ hy₀ hpage
        rw [if_pos rfl, isOpen_close, page_close]
        by_cases hw : w' = w
        · rw [if_pos hw, hw]
          exact iff_of_false Bool.false_ne_true hthis
        · rw [if_neg hw]
          exact hother y₀ w' hy₀ (.inr hw)
      · rw [if_neg hpage]
        exact hother y₀ w' hy₀ (.inl hpage)
  · rcases hcases with ⟨-, hshut⟩ | ⟨hopen, hshut⟩
    · rw [hshut] at hy
      exact h.used y (mem_of_mem_filter hy)
    · rw [hshut] at hy
      obtain ⟨y₀, hy₀, rfl⟩ := mem_map.mp hy
      by_cases hpage : y₀.page = x.page
      · obtain rfl := huniq y₀ hy₀ hpage
        rw [if_pos rfl]
        exact hopen
      · rw [if_neg hpage]
        exact h.used y₀ hy₀

theorem pipePages_filter (hnd : (pipePages l).Nodup) (hx : x ∈ l) :
    pipePages l = {x.page} + pipePages (l.filter fun y => y.page ≠ x.page) := by
  have hmap : (l.filter fun y => y.page ≠ x.page).map Pipe.page =
      (l.map Pipe.page).erase x.page := by
    rw [(Multiset.coe_nodup.mp hnd).erase_eq_filter, filter_map]
    refine congrArg _ (filter_congr fun y _ => ?_)
    rw [Function.comp_apply, bne, decide_not]
    rfl
  rw [pipePages, pipePages, hmap, ← Multiset.coe_erase, Multiset.singleton_add, Multiset.cons_erase]
  exact mem_map.mpr ⟨x, hx, rfl⟩

theorem pipePages_close (l : List Pipe) (pi : ℕ) (w : Bool) :
    pipePages (l.map fun y => if y.page = pi then y.close w else y) = pipePages l := by
  rw [pipePages, pipePages, map_map]
  refine congrArg _ (map_congr_left fun y _ => ?_)
  rw [Function.comp_apply]
  split_ifs
  · exact page_close y w
  · rfl

theorem pipeclose_spec {w : Bool} (hx : x ∈ s.pipes) (hnd : (pipePages s.pipes).Nodup)
    (hb : Books W s.kmem (s.pages + H)) : Ends (pipeclose x.page w s) (fun _ s' => ∃ k,
      s' = { s with kmem := k, pipes := shut x.page w s.pipes } ∧ Books W k (s'.pages + H)) E := by
  obtain ⟨hfind, -, hcases⟩ := shut_cases w hnd hx
  rw [pipeclose, get_bind, hfind]
  dsimp only
  rcases hcases with ⟨hclosed, hshut⟩ | ⟨⟨w', hopen⟩, hshut⟩
  · rw [if_pos ((closed_iff _).mpr hclosed), modify_bind, hshut]
    have hbook : Books W s.kmem ({x.page} +
        (Mem.pages { s with pipes := s.pipes.filter fun y => y.page ≠ x.page } + H)) := by
      refine hb.of_eq ?_
      rw [Mem.pages, Mem.pages, pipePages_filter hnd hx]
      abel
    refine (onKmem_spec (s := { s with pipes := s.pipes.filter fun y => y.page ≠ x.page })
      (kfree_spec hbook)).imp fun _ s' hs' => ?_
    obtain ⟨k, rfl, hk⟩ := hs'
    exact ⟨k, rfl, hk⟩
  · have hnot : ¬ ((x.close w).readopen = false ∧ (x.close w).writeopen = false) := by
      rw [closed_iff]
      intro hall
      rw [hall w'] at hopen
      cases hopen
    rw [if_neg hnot, hshut]
    refine ⟨s.kmem, rfl, hb.of_eq ?_⟩
    rw [Mem.pages, Mem.pages, pipePages_close]

/-- `fileclose` -/
theorem fileclose_spec (h : Inv W s hand H) (hf : 0 < (s.file f).ref) :
    Ends (fileclose f s) (fun _ s' => (∃ k, s' = { s with
        kmem := k, file := Function.update s.file f (s.file f).closed,
        pipes := (s.file f).shut s.pipes }) ∧
      Inv W s' (hand - Pi.single f 1) H) E := by
  have hminus : hand - Pi.single f 1 = hand + Pi.single f (-1) := by
    rw [Pi.single_neg, sub_eq_add_neg]
  rw [fileclose, get_bind, if_neg (by omega), File.closed, File.shut]
  by_cases hlast : 1 < (s.file f).ref
  · rw [if_pos hlast, if_pos hlast, if_pos hlast, hminus]
    refine ⟨⟨s.kmem, rfl⟩, h.setFile ?_ (fun _ _ => Iff.rfl) ?_⟩
    · show (((s.file f).ref - 1 : ℕ) : ℤ) = _
      omega
    · show (s.file f).ref - 1 = 0 → _
      omega
  · have hone : (s.file f).ref = 1 := by omega
    rw [if_neg hlast, if_neg hlast, if_neg hlast, modify_bind]
    have hplain : (∀ pi w, (s.file f).kind ≠ .pipe pi w) →
        Inv W (s.setFile f ⟨0, .none⟩) (hand - Pi.single f 1) H := by
      intro hne
      rw [hminus]
      refine h.setFile ?_ (fun pi w => iff_of_false nofun (hne pi w)) fun _ => rfl
      rw [hone]
      rfl
    cases hk : (s.file f).kind with
    | none => exact ⟨⟨s.kmem, rfl⟩, hplain (by rw [hk]; exact nofun)⟩
    | other => exact ⟨⟨s.kmem, rfl⟩, hplain (by rw [hk]; exact nofun)⟩
    | pipe pi w =>
      obtain ⟨x, hx, rfl⟩ := h.files.known f pi w hk
      have hfiles := h.files.shut h.nodup hk hone
      refine (pipeclose_spec (s := s.setFile f ⟨0, .none⟩) hx h.nodup h.books).imp
        fun _ s' hs' => ?_
      obtain ⟨k, rfl, hb⟩ := hs'
      exact ⟨⟨k, rfl⟩, hb, hfiles⟩

/-- Closing a file that has just been allocated. -/
theorem fileclose_new (h : Inv W s (hand + Pi.single f 1) H) (hf : s.file f = ⟨1, .none⟩) :
    Ends (fileclose f s) (fun _ s' => (∃ k, s' = { s with
        kmem := k, file := Function.update s.file f ⟨0, .none⟩ }) ∧ Inv W s' hand H) E := by
  refine (fileclose_spec h (by rw [hf]; exact Nat.one_pos)).imp fun _ s' hs' => ?_
  obtain ⟨⟨k, hs⟩, hi⟩ := hs'
  rw [add_sub_cancel_right] at hi
  rw [hf] at hs
  exact ⟨⟨k, hs⟩, hi⟩

/-! ## Making a pipe -/

/-- The file table with two files that are the ends of a pipe. -/
abbrev withEnds (file : Fin nfile → File) (f₀ f₁ : Fin nfile) (pi : ℕ) : Fin nfile → File :=
  Function.update (Function.update file f₀ ⟨1, .pipe pi false⟩) f₁ ⟨1, .pipe pi true⟩

/-- Two files become the ends of a pipe in a page that no other pipe is in. -/
theorem Files.pipe (h : Files file pipes o hand) (hne : f₀ ≠ f₁) (h₀ : file f₀ = ⟨1, .none⟩)
    (h₁ : file f₁ = ⟨1, .none⟩) (hpi : pi ∉ pipePages pipes) :
    Files (withEnds file f₀ f₁ pi) (⟨pi, true, true⟩ :: pipes) o hand := by
  have hfile : ∀ g, withEnds file f₀ f₁ pi g = if g = f₁ then ⟨1, .pipe pi true⟩ else
      if g = f₀ then ⟨1, .pipe pi false⟩ else file g := by
    intro g
    rw [withEnds, Function.update_apply, Function.update_apply]
  -- the new file of an end; which one it is
  have hnew : ∀ g w, (withEnds file f₀ f₁ pi g).kind = .pipe pi w ↔
      g = if w then f₁ else f₀ := by
    intro g w
    rw [hfile]
    by_cases hg₁ : g = f₁
    · rw [if_pos hg₁, hg₁]
      cases w <;> simp [hne.symm]
    by_cases hg₀ : g = f₀
    · rw [if_neg hg₁, if_pos hg₀, hg₀]
      cases w <;> simp [hne]
    rw [if_neg hg₁, if_neg hg₀]
    refine iff_of_false (fun hk => hpi ?_) ?_
    · obtain ⟨x, hx, rfl⟩ := h.known g _ _ hk
      exact mem_map.mpr ⟨x, hx, rfl⟩
    · cases w
      · exact hg₀
      · exact hg₁
  have hold : ∀ g pi' w, pi' ≠ pi → ((withEnds file f₀ f₁ pi g).kind = .pipe pi' w ↔
      (file g).kind = .pipe pi' w) := by
    intro g pi' w hpi'
    rw [hfile]
    split_ifs with hg₁ hg₀
    · rw [hg₁, h₁]
      refine iff_of_false (fun hk => hpi' ?_) nofun
      cases hk
      rfl
    · rw [hg₀, h₀]
      refine iff_of_false (fun hk => hpi' ?_) nofun
      cases hk
      rfl
    · exact Iff.rfl
  refine ⟨fun g => ?_, fun g hg => ?_, fun g g' pi' w hg hg' => ?_, fun g pi' w hg => ?_,
    fun x hx w => ?_, fun x hx => ?_⟩
  · have hcount := h.count g
    rw [hfile]
    split_ifs with hg₁ hg₀
    · rw [hg₁, h₁] at hcount
      rw [hg₁]
      exact hcount
    · rw [hg₀, h₀] at hcount
      rw [hg₀]
      exact hcount
    · exact hcount
  · rw [hfile] at hg ⊢
    split_ifs at hg ⊢ with hg₁ hg₀
    exact h.idle g hg
  · by_cases hpi' : pi' = pi
    · rw [hpi'] at hg hg'
      exact ((hnew g w).mp hg).trans ((hnew g' w).mp hg').symm
    · exact h.once g g' pi' w ((hold g pi' w hpi').mp hg) ((hold g' pi' w hpi').mp hg')
  · by_cases hpi' : pi' = pi
    · exact ⟨_, (.head _), hpi'.symm⟩
    · obtain ⟨x, hx, hxp⟩ := h.known g pi' w ((hold g pi' w hpi').mp hg)
      exact ⟨x, .tail _ hx, hxp⟩
  · rcases mem_cons.mp hx with rfl | hx'
    · exact iff_of_true (by cases w <;> rfl) ⟨if w then f₁ else f₀, (hnew _ w).mpr rfl⟩
    · have hpage : x.page ≠ pi := by
        rintro rfl
        exact hpi (mem_map.mpr ⟨x, hx', rfl⟩)
      rw [h.ends x hx' w]
      exact exists_congr fun g => (hold g _ w hpage).symm
  · rcases mem_cons.mp hx with rfl | hx
    · exact ⟨true, rfl⟩
    · exact h.used x hx

/-- A page in hand is not one of the pages that are held. -/
theorem Inv.fresh {x : ℕ} (h : Inv W s hand ({x} + H)) : x ∉ s.pages := by
  intro hx
  have hnd := (Multiset.nodup_add.mp h.books.nodup).2.1
  exact Multiset.disjoint_left.mp (Multiset.nodup_add.mp hnd).2.2 hx (by simp)

/-- Only the last change of each of two files counts. -/
theorem update_update (hne : f₀ ≠ f₁) (v₀ v₁ w₀ w₁ : File) :
    Function.update (Function.update (Function.update (Function.update file f₀ v₀) f₁ v₁) f₀ w₀)
      f₁ w₁ = Function.update (Function.update file f₀ w₀) f₁ w₁ := by
  funext g
  by_cases h₁ : g = f₁
  · rw [h₁, update_self, update_self]
  by_cases h₀ : g = f₀
  · rw [h₀, update_of_ne hne, update_self, update_of_ne hne, update_self]
  · rw [update_of_ne h₁, update_of_ne h₀, update_of_ne h₁,
      update_of_ne h₀, update_of_ne h₁, update_of_ne h₀]

/-- The state after `pipealloc`. -/
def Mem.withPipe (s : Mem n) (k : Kmem) (f₀ f₁ : Fin nfile) (pi : ℕ) : Mem n :=
  { s with
    kmem := k
    file := Function.update (Function.update s.file f₀ ⟨1, .pipe pi false⟩) f₁ ⟨1, .pipe pi true⟩
    pipes := ⟨pi, true, true⟩ :: s.pipes }

theorem pipeallocInit_spec (h₀ : s.file f₀ = ⟨1, .none⟩) (h₁ : s.file f₁ = ⟨1, .none⟩) :
    Ends (pipeallocInit f₀ f₁ pi s) (fun _ s' => s' = s.withPipe s.kmem f₀ f₁ pi) E := by
  rw [pipeallocInit, modify_apply, ends_ok, h₀, h₁]
  rfl

/-- `pipealloc` makes a pipe, or gives everything back. -/
theorem pipealloc_spec (h : Inv W s hand H) :
    Ends (pipealloc s) (fun o s' => match o with
      | none => ∃ k, s' = { s with kmem := k } ∧ Inv W s' hand H
      | some (f₀, f₁) => f₀ ≠ f₁ ∧ s.file f₀ = ⟨0, .none⟩ ∧ s.file f₁ = ⟨0, .none⟩ ∧
          ∃ k pi, pi ∉ s.pages ∧ s' = s.withPipe k f₀ f₁ pi ∧
          Inv W s' (hand + Pi.single f₀ 1 + Pi.single f₁ 1) H) E := by
  rw [pipealloc]
  refine Ends.bind (filealloc_spec h) fun o₀ s₁ hs₁ => ?_
  cases o₀ with
  | none => exact ⟨s.kmem, hs₁, by rw [show s₁ = s from hs₁]; exact h⟩
  | some f₀ =>
    obtain ⟨h₀, rfl, hi₁⟩ := hs₁
    have hback : Function.update (Function.update s.file f₀ ⟨1, .none⟩) f₀ ⟨0, .none⟩ = s.file := by
      rw [update_idem, ← h₀, update_eq_self]
    refine Ends.bind (filealloc_spec hi₁) fun o₁ s₂ hs₂ => ?_
    cases o₁ with
    | none =>
      obtain rfl : s₂ = _ := hs₂
      refine Ends.bind (fileclose_new hi₁ (setFile_self f₀ _)) fun _ s₃ hs₃ => ?_
      obtain ⟨⟨k, rfl⟩, hi₃⟩ := hs₃
      refine ⟨k, ?_, hi₃⟩
      rw [Mem.setFile, hback]
    | some f₁ =>
      obtain ⟨h₁, rfl, hi₂⟩ := hs₂
      have hne : f₀ ≠ f₁ := by
        rintro rfl
        rw [setFile_self] at h₁
        cases h₁
      rw [setFile_of_ne _ hne.symm] at h₁
      have hone₀ : ((s.setFile f₀ ⟨1, .none⟩).setFile f₁ ⟨1, .none⟩).file f₀ = ⟨1, .none⟩ := by
        rw [setFile_of_ne _ hne, setFile_self]
      refine Ends.bind hi₂.kalloc fun o s₃ hs₃ => ?_
      obtain ⟨k, rfl, hi₃⟩ := hs₃
      cases o with
      | none =>
        rw [Option.elim_none, zero_add, add_right_comm] at hi₃
        refine Ends.bind (fileclose_new hi₃ hone₀) fun _ s₄ hs₄ => ?_
        obtain ⟨⟨k₄, rfl⟩, hi₄⟩ := hs₄
        have hone₁ : Function.update (Function.update (Function.update s.file f₀ ⟨1, .none⟩) f₁
            ⟨1, .none⟩) f₀ ⟨0, .none⟩ f₁ = ⟨1, .none⟩ := by
          rw [update_of_ne hne.symm, update_self]
        refine Ends.bind (fileclose_new hi₄ hone₁) fun _ s₅ hs₅ => ?_
        obtain ⟨⟨k₅, rfl⟩, hi₅⟩ := hs₅
        refine ⟨k₅, ?_, hi₅⟩
        have hfile : Function.update (Function.update s.file f₀ ⟨0, .none⟩) f₁ ⟨0, .none⟩ =
            s.file := by
          rw [← h₀, update_eq_self, h₀, ← h₁, update_eq_self]
        exact congrArg (fun file => ({ s with kmem := k₅, file := file } : Mem n))
          ((update_update hne _ _ _ _).trans hfile)
      | some pi =>
        rw [Option.elim_some] at hi₃
        have hpi : pi ∉ s.pages := hi₃.fresh
        have hfiles := hi₃.files.pipe hne hone₀ (setFile_self f₁ _)
          fun hmem => hpi (Multiset.mem_add.mpr (.inr hmem))
        refine Ends.bind (pipeallocInit_spec hone₀ (setFile_self f₁ _)) fun _ s₄ hs₄ => ?_
        refine ⟨hne, h₀, h₁, k, pi, hpi, ?_⟩
        obtain rfl : s₄ = s.withPipe k f₀ f₁ pi := by
          rw [Mem.withPipe, ← update_update hne ⟨1, .none⟩ ⟨1, .none⟩]
          exact hs₄
        refine ⟨rfl, hi₃.books.of_eq ?_, ?_⟩
        · show s.pages + ({pi} + H) =
            ∑ p, (s.proc p).pages + pipePages (⟨pi, true, true⟩ :: s.pipes) + H
          rw [Mem.pages, pipePages, pipePages, map_cons, ← Multiset.cons_coe,
            ← Multiset.singleton_add]
          abel
        · rw [Mem.withPipe, ← update_update hne ⟨1, .none⟩ ⟨1, .none⟩]
          exact hfiles

/-- The read end of a new pipe is closed, and then the write end: the pipe is gone. -/
theorem shut_shut (hpi : pi ∉ pipePages l) :
    shut pi true (shut pi false (⟨pi, true, true⟩ :: l)) = l := by
  have hne : ∀ y ∈ l, y.page ≠ pi := by
    rintro y hy rfl
    exact hpi (mem_map.mpr ⟨y, hy, rfl⟩)
  have hread : shut pi false (⟨pi, true, true⟩ :: l) = ⟨pi, false, true⟩ :: l := by
    have hmap : (l.map fun y => if y.page = pi then y.close false else y) = l := by
      refine (map_congr_left fun y hy => ?_).trans (map_id l)
      exact if_neg (hne y hy)
    rw [shut, List.find?_cons_of_pos (by simp)]
    simp only [map_cons, hmap]
    rfl
  have hfilter : (l.filter fun y => y.page ≠ pi) = l :=
    filter_eq_self.mpr fun y hy => decide_eq_true (hne y hy)
  rw [hread, shut, List.find?_cons_of_pos (by simp)]
  simp only [filter_cons, hfilter]
  simp [Pipe.close]

/-- Closing both ends of a new pipe gives everything back. -/
theorem fileclose_pipe (hne : f₀ ≠ f₁) (h₀ : file f₀ = ⟨0, .none⟩) (h₁ : file f₁ = ⟨0, .none⟩)
    (hfile : s.file = withEnds file f₀ f₁ pi) (hpipes : s.pipes = ⟨pi, true, true⟩ :: l)
    (hpi : pi ∉ pipePages l) (h : Inv W s (hand + Pi.single f₀ 1 + Pi.single f₁ 1) H) :
    Ends ((fileclose f₀ >>= fun _ => fileclose f₁) s) (fun _ s' => ∃ k,
      s' = { s with kmem := k, file := file, pipes := l } ∧ Inv W s' hand H) E := by
  have hf₀ : s.file f₀ = ⟨1, .pipe pi false⟩ := by
    rw [hfile, withEnds, update_of_ne hne, update_self]
  have hf₁ : s.file f₁ = ⟨1, .pipe pi true⟩ := by
    rw [hfile, withEnds, update_self]
  refine Ends.bind (fileclose_spec h (by rw [hf₀]; exact Nat.one_pos)) fun _ s₁ hs₁ => ?_
  obtain ⟨⟨k₁, rfl⟩, hi₁⟩ := hs₁
  rw [add_right_comm, add_sub_cancel_right] at hi₁
  have hf₁' : Function.update s.file f₀ (s.file f₀).closed f₁ = ⟨1, .pipe pi true⟩ := by
    rw [update_of_ne hne.symm, hf₁]
  refine (fileclose_spec hi₁ ?_).imp fun _ s₂ hs₂ => ?_
  · show 0 < (Function.update s.file f₀ (s.file f₀).closed f₁).ref
    rw [hf₁']
    exact Nat.one_pos
  · obtain ⟨⟨k₂, hs₂⟩, hi₂⟩ := hs₂
    rw [add_sub_cancel_right] at hi₂
    refine ⟨k₂, ?_, hi₂⟩
    dsimp only at hs₂
    rw [hf₁', hf₀, hfile, hpipes] at hs₂
    rw [hs₂]
    have hback : Function.update (Function.update (withEnds file f₀ f₁ pi) f₀ ⟨0, .none⟩) f₁
        ⟨0, .none⟩ = file := by
      rw [update_update hne, ← h₀, update_eq_self, h₀, ← h₁, update_eq_self]
    exact congrArg₂
      (fun file pipes => ({ s with kmem := k₂, file := file, pipes := pipes } : Mem n))
      hback (shut_shut hpi)

end Vm

end TrinityXv6
