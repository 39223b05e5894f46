import TrinityXv6.Process.ForkInv

/-!
# The actions of `kfork`, `kexit` and `kwait`

Each action that changes the life of a process keeps the invariant: a slot is taken or the attempt
fails, the new process gets a parent and starts, a process closes its files, hands over its
children and becomes a zombie, and its parent frees it.
-/

namespace TrinityXv6

namespace Process

namespace Fork

open Threads
open Function (update update_self update_of_ne update_eq_self)

variable {n : ℕ} {init p q : Fin n} {nz : Prop} {s s' : Kernel n} {G G' : Tid n → View n}
  {t : Tid n} {g : View n} {l : List (Event n (Chan n))} {v v' : Proc n (Chan n)}
  {f : Fin n → Option (Fin n)}

/-- A process that creates another one, with all the parents if it holds `wait_lock`. -/
def View.creating (par : Option (Fin n → Option (Fin n))) (q : Fin n) (b : Bool) : View n :=
  ⟨par, some (q, b), false, fun _ => false, false, none⟩

/-- A process that waits for its children and holds `wait_lock`, or that is about to return. -/
def View.waiting (par : Option (Fin n → Option (Fin n))) (ret : Option Reach) : View n :=
  ⟨par, none, false, fun _ => false, false, ret⟩

/-- A process that exits and has closed these files. -/
def View.closing (closed : Fin nofile → Bool) (gone : Bool) : View n :=
  ⟨none, none, false, closed, gone, none⟩

/-- A process that hands over its children. -/
def View.leaving (f : Fin n → Option (Fin n)) : View n :=
  ⟨some f, none, true, fun _ => true, true, none⟩

/-- An unused slot contains nothing after `freeproc` if it had no files. -/
theorem blank_free (ho : ∀ fd, v.ofile fd = false) (hc : v.cwd = false) : Blank v.free :=
  ⟨rfl, rfl, rfl, rfl, ho, hc, rfl, rfl⟩

theorem Same.allocated (hp : p ≠ q) (c : Fin n) : Same init l (.allocated (some q) c :: l) p := by
  simp [Same, life, parentOf, orphan, creator, birth, hit, Ne.symm hp]

theorem Same.started (hp : p ≠ q) : Same init l (.started q :: l) p :=
  ⟨if_neg (Ne.symm hp), rfl, rfl, rfl⟩

theorem Same.reaped (hp : p ≠ q) {c : Fin n} {ret : Int32} {dst : Option Bool}
    {stored : Option Int32} : Same init l (.reaped c q ret dst stored :: l) p :=
  ⟨if_neg (Ne.symm hp), rfl, rfl, if_neg (Ne.symm hp)⟩

/-- When a process exits, its children get the first process as their parent. -/
theorem parentOf_exited {x : Int32} : parentOf init q (.exited p x :: l) =
    if parentOf init q l = some p then some init else parentOf init q l := by
  cases ho : orphan q l with
  | true => simp [parentOf, orphan, ho]
  | false => simp [parentOf, orphan, creator, ho]

namespace Inv

variable (h : Inv init nz s G)
include h

/-- Nobody creates a process in a slot that is free. -/
theorem child_ne (hl : life init q s.hist ≠ .used) {x : Fin n} {b : Bool} :
    (G (.inl x)).child ≠ some (q, b) := fun hb => hl (h.child x q b hb).1

theorem nextpid_add_one : s.nextpid + 1 = Int32.ofNat (forks s.hist + 1 + 2) := by
  rw [h.nextpid, Nat.add_right_comm, Int32.ofNat_add (forks s.hist + 2)]
  rfl

variable (hr : (s.proc p).state = .running)
include hr

/-- The process that acts is live. -/
theorem ne_of_running (hl : life init q s.hist ≠ .live) : q ≠ p := by
  rintro rfl
  exact hl ((h.slot q).live_of_running hr)

/-- `kfork` fails to fill an unused slot. -/
theorem fail (hG : G (.inl p) = View.out) (hu : (s.proc q).state = .unused) : Inv init nz
      (({ s.setProc q (s.proc q).free with nextpid := s.nextpid + 1 } : Kernel n).note
        (.allocated none p)) (update G (.inl p) View.out) := by
  have hl := (h.slot q).free_of_unused hu
  have hqp : q ≠ p := h.ne_of_running hr (by rw [hl]; rintro ⟨⟩)
  refine h.act hG rfl rfl rfl (.inl rfl) nofun (fun x _ => ⟨rfl, rfl, rfl, rfl⟩)
    h.nextpid_add_one h.hist (h.ret_same (by rw [hG])) nofun nofun ?_ rfl nofun
    (fun _ => ⟨rfl, rfl⟩) ?_
  · intro x b _ hb
    exact absurd hb (h.child_ne (by rw [hl]; rintro ⟨⟩))
  · refine .of_free hl rfl (fun hz => ?_) ?_
    · obtain ⟨-, hk, -, -, ho, hc, -⟩ := (h.slot q).blank hz hu
      exact ⟨blank_free ho hc, ((h.slot q).killed hz).symm.trans hk⟩
    · rw [update_of_ne (Sum.inl_injective.ne hqp)]
      exact (h.slot q).closed_ne (by rw [hl]; rintro ⟨⟩)

/-- `kfork` fills an unused slot. -/
theorem alloc (hG : G (.inl p) = View.out) (hu : (s.proc q).state = .unused)
    (hv : v = { s.proc q with
      pid := s.nextpid, state := .used, trapframe := true, pagetable := true,
      ofile := fun fd => if (s.proc p).ofile fd then true else (s.proc q).ofile fd,
      cwd := (s.proc p).cwd }) :
    Inv init nz
      (({ s.setProc q v with nextpid := s.nextpid + 1 } : Kernel n).note (.allocated (some q) p))
      (update G (.inl p) (View.creating none q false)) := by
  have hl := (h.slot q).free_of_unused hu
  have hqp : q ≠ p := h.ne_of_running hr (by rw [hl]; rintro ⟨⟩)
  have hused : life init q (.allocated (some q) p :: s.hist) = .used := if_pos rfl
  refine h.act hG rfl rfl rfl (.inl ?_) (by rintro _ ⟨⟩) (fun x hx => .allocated hx p)
    h.nextpid_add_one ⟨hl, (h.slot p).live_of_running hr, h.hist⟩ (h.ret_same (by rw [hG]; rfl))
    nofun ?_ ?_ rfl (by rintro ⟨⟩) (fun _ => ⟨rfl, rfl⟩) ?_
  · rw [hv]
  · rintro x b ⟨⟩
    exact ⟨hused, by simp [parentOf, orphan, creator], by rintro ⟨⟩⟩
  · intro x b _ hb
    exact absurd hb (h.child_ne (by rw [hl]; rintro ⟨⟩))
  · have hclosed := (h.slot q).closed_ne (by rw [hl]; rintro ⟨⟩)
    have hq : update G (.inl p) (View.creating none q false) (.inl q) = G (.inl q) :=
      update_of_ne (Sum.inl_injective.ne hqp) _ _
    refine ⟨?_, fun _ => ⟨p, false, by rw [update_self]; rfl⟩, fun _ hlz => ?_, fun _ => ?_,
      fun _ hun => ?_, fun _ hzo => ?_, fun hz => ?_, fun fd hfd => ?_, fun hg => ?_⟩
    · show StageOk v (life init q (.allocated (some q) p :: s.hist))
      rw [hused, hv]
      rfl
    · rcases hlz with hlz | ⟨x, hlz⟩ <;> cases hused.symm.trans hlz
    · rw [hv]
      simp [birth, h.nextpid]
    · rw [hv] at hun
      cases hun
    · rw [hv] at hzo
      cases hzo
    · rw [hv]
      simp [hit, ((h.slot q).blank hz hu).2.1]
    · rw [hq] at hfd
      exact absurd hfd (hclosed.1 fd)
    · rw [hq] at hg
      exact absurd hg hclosed.2

/-- The new process gets its parent. -/
theorem adopt (hG : G (.inl p) = View.creating (some f) q false) :
    Inv init nz (s.setProc q { s.proc q with parent := some p })
      (update G (.inl p)
        (View.creating (some (update f q (some p))) q true)) := by
  obtain ⟨hu, hc, -⟩ := h.child p q false (by rw [hG]; rfl)
  have hqp : (Sum.inl q : Tid n) ≠ .inl p := by
    rintro ⟨⟩
    exact h.ne_of_running hr (by rw [hu]; rintro ⟨⟩) rfl
  refine h.act hG rfl rfl rfl (.inr rfl) ?_ (fun x _ => .refl _ _ _) h.nextpid h.hist
    (h.ret_same (by rw [hG]; rfl)) ?_ ?_ ?_ rfl nofun (fun _ => ⟨rfl, rfl⟩) ?_
  · rintro f' ⟨⟩
    exact h.par_update (by rw [hG]; rfl)
  · rintro x b ⟨⟩ hx
    exact absurd rfl hx
  · rintro x b ⟨⟩
    exact ⟨hu, hc, fun _ => by rw [State.setProc_proc_self]⟩
  · -- a process has one creator
    intro x b hx hb
    have hcx := (h.child x q b hb).2.1
    exact absurd (Option.some.inj (hcx.symm.trans hc)) hx
  · have hs : SlotOk init nz s.hist (update G (.inl p)
        (View.creating (some (update f q (some p))) q true)) q (s.proc q) := by
      refine (h.slot q).congr (.refl _ _ _) (fun _ _ _ => ⟨p, true, ?_⟩) (fun c hc' hce => ?_)
        (fun fd => ?_) ?_
      · rw [update_self]
        rfl
      · obtain rfl : p = c := Option.some.inj (hc.symm.trans hc')
        rw [hG] at hce
        cases hce
      · rw [update_of_ne hqp]
        exact id
      · rw [update_of_ne hqp]
        exact id
    refine hs.setParent fun _ hlz => ?_
    rcases hlz with hlz | ⟨x, hlz⟩ <;> cases hu.symm.trans hlz

/-- The new process can run. -/
theorem start (hG : G (.inl p) = View.creating none q true) :
    Inv init nz ((s.setProc q { s.proc q with state := .runnable }).note (.started q))
      (update G (.inl p) View.out) := by
  obtain ⟨hu, hc, hb⟩ := h.child p q true (by rw [hG]; rfl)
  have hqp : q ≠ p := h.ne_of_running hr (by rw [hu]; rintro ⟨⟩)
  have hlive : life init q (.started q :: s.hist) = .live := if_pos rfl
  refine h.act hG rfl rfl rfl (.inl rfl) nofun (fun x hx => .started hx) h.nextpid
    ⟨hu, h.hist⟩ (h.ret_same (by rw [hG]; rfl)) ?_ nofun ?_ rfl nofun (fun _ => ⟨rfl, rfl⟩) ?_
  · rintro x b ⟨⟩ hx
    exact absurd rfl hx
  · intro x b hx hb
    have hcx := (h.child x q b hb).2.1
    exact absurd (Option.some.inj (hcx.symm.trans hc)) hx
  · have hclosed := (h.slot q).closed_ne (by rw [hu]; rintro ⟨⟩)
    have hq : update G (.inl p) View.out (.inl q) = G (.inl q) :=
      update_of_ne (Sum.inl_injective.ne hqp) _ _
    refine ⟨?_, fun hus => ?_, fun _ _ => .inl ?_, fun _ => ?_, nofun, nofun,
      (h.slot q).killed, fun fd hfd => ?_, fun hg => ?_⟩
    · show StageOk _ (life init q (.started q :: s.hist))
      rw [hlive]
      exact .inl rfl
    · cases hlive.symm.trans hus
    · exact (hb rfl).trans hc.symm
    · exact (h.slot q).pid (by rw [hu]; rintro ⟨⟩)
    · rw [hq] at hfd
      exact absurd hfd (hclosed.1 fd)
    · rw [hq] at hg
      exact absurd hg hclosed.2

/-- A process that exits closes files. -/
theorem close {c c' : Fin nofile → Bool} {b b' : Bool} (hG : G (.inl p) = View.closing c b)
    {o : Fin nofile → Bool} {d : Bool} (ho : ∀ fd, c' fd = true → o fd = false)
    (hd : b' = true → d = false) : Inv init nz (s.setProc p { s.proc p with ofile := o, cwd := d })
      (update G (.inl p) (View.closing c' b')) := by
  refine h.act hG rfl rfl rfl (.inl rfl) nofun (fun _ _ => .refl _ _ _) h.nextpid h.hist
    (h.ret_same (by rw [hG]; rfl)) nofun nofun ?_ rfl nofun (fun hne => absurd rfl hne) ?_
  · intro x b _ hb
    exact absurd hb (h.child_ne (by rw [(h.slot p).live_of_running hr]; rintro ⟨⟩))
  · refine (h.slot p).setFiles hr (fun x hx => ?_) ?_ ?_
    · by_cases hxp : (Sum.inl x : Tid n) = .inl p
      · rw [hxp, hG] at hx
        cases hx
      · rwa [update_of_ne hxp]
    · rw [update_self]
      exact ho
    · rw [update_self]
      exact hd

omit hr in
/-- A process that exits gives a child to the first process. -/
theorem handOver (hG : G (.inl p) = View.leaving f) (hp : p ≠ init)
    (hq : (s.proc q).parent = some p) :
    Inv init nz (s.setProc q { s.proc q with parent := some init })
      (update G (.inl p) (View.leaving (update f q (some init)))) := by
  refine h.act hG rfl rfl rfl (.inr rfl) ?_ (fun x _ => .refl _ _ _) h.nextpid h.hist
    (h.ret_same (by rw [hG]; rfl)) nofun nofun ?_ rfl (fun _ => rfl) (fun _ => ⟨rfl, rfl⟩) ?_
  · rintro f' ⟨⟩
    exact h.par_update (by rw [hG]; rfl)
  · -- a process that is about to start has the process that creates it as its parent
    intro x b hx hb
    refine ⟨.refl _ _ _, fun hbt => ?_⟩
    have hxp := (h.child x q b hb).2.2 hbt
    exact absurd (Option.some.inj (hxp.symm.trans hq)) hx
  · have hs : SlotOk init nz s.hist (update G (.inl p)
        (View.leaving (update f q (some init)))) q (s.proc q) := by
      refine (h.slot q).view (.refl _ _ _) ?_ (fun _ => rfl) ?_ ?_ <;> rw [hG] <;> rfl
    refine hs.setParent fun hqi hlz => .inr ⟨rfl, p, ?_, ?_⟩
    · rcases (h.slot q).parent hqi hlz with hpar | ⟨hpar, -⟩
      · exact hpar.symm.trans hq
      · exact absurd (Option.some.inj (hq.symm.trans hpar)) hp
    · rw [update_self]
      rfl

/-- A process that has handed over its children becomes a zombie. -/
theorem exit (hG : G (.inl p) = View.leaving f) (hp : p ≠ init) (hf : ∀ q, f q ≠ some p)
    (status : Int32) : Inv init nz (exitOf status p s) (update G (.inl p) View.out) := by
  have hheld : (G (.inl p)).held = some .wait := by
    rw [hG]
    rfl
  have hlive := (h.slot p).live_of_running hr
  have hz : life init p (.exited p status :: s.hist) = .zombie status := if_pos rfl
  have hlife : ∀ {x}, x ≠ p → life init x (.exited p status :: s.hist) = life init x s.hist :=
    fun hx => if_neg (Ne.symm hx)
  -- nobody has the process as its parent any more, so the table agrees with the history
  have hparent : ∀ x, x ≠ init →
      life init x s.hist = .live ∨ (∃ y, life init x s.hist = .zombie y) →
      (s.proc x).parent = parentOf init x (.exited p status :: s.hist) := by
    intro x hx hl
    rw [parentOf_exited]
    have hfx := h.par (.inl p) f (by rw [hG]; rfl) x
    rcases (h.slot x).parent hx hl with hpar | ⟨hpar, c, hc, hce⟩
    · rw [← hpar, if_neg]
      rw [hfx]
      exact hf x
    · obtain ⟨⟩ := h.exiting_unique hce hheld
      rw [if_pos hc, hpar]
  refine ⟨?_, fun u f' hf' x => ?_, fun x y b hb => ?_, fun u hu => ?_, h.nextpid,
    ⟨hlive, hp, h.hist⟩, h.ret_same (by rw [hG]; rfl), fun x => ?_⟩
  · rw [views_update View.held]
    exact h.lock.release ((h.lock .wait _).mpr hheld)
  · obtain ⟨rfl, ⟨⟩⟩ | ⟨hu, hf'⟩ := update_cases hf'
    refine absurd (h.lock.unique ?_ hheld) hu
    rw [View.held, hf']
    rfl
  · by_cases hx : x = p
    · rw [hx, update_self] at hb
      cases hb
    · rw [update_of_ne (Sum.inl_injective.ne hx)] at hb
      obtain ⟨hu, hc, hb'⟩ := h.child x y b hb
      have hy : y ≠ p := h.ne_of_running hr (by rw [hu]; rintro ⟨⟩)
      refine ⟨(hlife hy).trans hu, ?_, fun hbt => ?_⟩
      · show parentOf init y (.exited p status :: s.hist) = some x
        rw [parentOf_exited, if_neg, hc]
        rw [hc]
        exact fun he => hx (Option.some.inj he)
      · rw [← hb' hbt]
        simp [exitOf, hy]
  · obtain ⟨rfl, ⟨⟩⟩ | ⟨hut, hu⟩ := update_cases hu
    rw [update_of_ne hut]
    exact h.exiting u hu
  · by_cases hx : x = p
    · subst hx
      have hself : (exitOf status x s).proc x =
          { s.proc x with xstate := status, state := .zombie } := by
        simp [exitOf]
      rw [hself]
      refine ⟨?_, fun hu => ?_, fun hxi _ => .inl (hparent x hxi (.inl hlive)), fun _ => ?_,
        by rintro _ ⟨⟩, fun _ _ => ⟨fun fd => ?_, ?_⟩, (h.slot x).killed, fun fd hfd => ?_,
        fun hg => ?_⟩
      · show StageOk _ (life init x (.exited x status :: s.hist))
        rw [hz]
        exact ⟨rfl, rfl⟩
      · cases hz.symm.trans hu
      · exact (h.slot x).pid (by rw [hlive]; rintro ⟨⟩)
      · exact ((h.slot x).closed fd (by rw [hG]; rfl)).1
      · exact ((h.slot x).gone (by rw [hG]; rfl)).1
      · rw [update_self] at hfd
        cases hfd
      · rw [update_self] at hg
        cases hg
    · have hne : (exitOf status p s).proc x = s.proc x := by simp [exitOf, hx]
      rw [hne]
      have hs := h.slot x
      refine ⟨?_, fun hu => ?_, fun hxi hl => .inl ?_, fun hfr => ?_, hs.blank, hs.zombie,
        hs.killed,
        ?_, ?_⟩
      · show StageOk _ (life init x (.exited p status :: s.hist))
        rw [hlife hx]
        exact hs.stage
      · obtain ⟨y, b, hb⟩ := hs.used ((hlife hx).symm.trans hu)
        have hyp : y ≠ p := by
          rintro rfl
          rw [hG] at hb
          cases hb
        exact ⟨y, b, by rwa [update_of_ne (Sum.inl_injective.ne hyp)]⟩
      · change life init x (.exited p status :: s.hist) = _ ∨
          (∃ y, life init x (.exited p status :: s.hist) = .zombie y) at hl
        rw [hlife hx] at hl
        exact hparent x hxi hl
      · change life init x (.exited p status :: s.hist) ≠ _ at hfr
        rw [hlife hx] at hfr
        exact hs.pid hfr
      · show ∀ fd, _ → _ ∧ life init x (.exited p status :: s.hist) = .live
        rw [update_of_ne (Sum.inl_injective.ne hx), hlife hx]
        exact hs.closed
      · show _ → _ ∧ life init x (.exited p status :: s.hist) = .live
        rw [update_of_ne (Sum.inl_injective.ne hx), hlife hx]
        exact hs.gone

omit hr in
/-- What a process that holds `wait_lock` finds out about a zombie. -/
theorem zombie_child (hG : G (.inl p) = View.waiting (some f) none)
    (hq : (s.proc q).parent = some p) (hz : (s.proc q).state = .zombie) :
    life init q s.hist = .zombie (s.proc q).xstate ∧ parentOf init q s.hist = some p := by
  have hl := (h.slot q).zombie_of_state hz
  have hqi : q ≠ init := by
    rintro rfl
    cases hl.symm.trans h.hist.first
  refine ⟨hl, ?_⟩
  rcases (h.slot q).parent hqi (.inr ⟨_, hl⟩) with hpar | ⟨-, c, -, hce⟩
  · exact hpar.symm.trans hq
  · -- whoever hands over children has the lock that we have
    obtain ⟨⟩ := h.exiting_unique hce (by rw [hG]; rfl)
    rw [hG] at hce
    cases hce

/-- The parent of a zombie frees it. -/
theorem reap (hG : G (.inl p) = View.waiting (some f) none) (hq : (s.proc q).parent = some p)
    (hz : (s.proc q).state = .zombie) (dst : Option Bool) : Inv init nz
      ((s.setProc q { s.proc q with parent := none }.free).note
        (.reaped p q (s.proc q).pid dst (dst.map fun _ => (s.proc q).xstate)))
      (update G (.inl p)
        (View.waiting (some (update f q none)) (some (.freed (s.proc q).pid)))) := by
  obtain ⟨hl, hpar⟩ := h.zombie_child hG hq hz
  have hqp : (Sum.inl q : Tid n) ≠ .inl p := by
    rintro ⟨⟩
    exact h.ne_of_running hr (by rw [hl]; rintro ⟨⟩) rfl
  refine h.act hG rfl rfl rfl (.inr rfl) ?_ (fun x hx => .reaped hx) h.nextpid
    ⟨⟨_, hl, rfl⟩, hpar, (h.slot q).pid (by rw [hl]; rintro ⟨⟩), h.hist⟩ (fun u => ?_) nofun nofun
    ?_ rfl nofun (fun _ => ⟨rfl, rfl⟩) ?_
  · rintro f' ⟨⟩
    exact h.par_update (by rw [hG]; rfl)
  · show (if .inl p = u then some (.freed (s.proc q).pid) else reachedBy u s.hist) = _
    by_cases hu : .inl p = u
    · rw [if_pos hu, ← hu, update_self]
      rfl
    · rw [if_neg hu, h.ret u, update_of_ne (Ne.symm hu)]
  · intro x b _ hb
    exact absurd hb (h.child_ne (by rw [hl]; rintro ⟨⟩))
  · refine .of_free (if_pos rfl) rfl (fun hnz => ?_) ?_
    · obtain ⟨ho, hc⟩ := (h.slot q).zombie hnz hz
      exact ⟨blank_free ho hc, if_pos rfl⟩
    · rw [update_of_ne hqp]
      exact (h.slot q).closed_ne (by rw [hl]; rintro ⟨⟩)

omit hr in
/-- The parent of a zombie cannot store its status. -/
theorem unstored (hG : G (.inl p) = View.waiting (some f) none) (hq : (s.proc q).parent = some p)
    (hz : (s.proc q).state = .zombie) : Inv init nz (s.note (.unstored p q)) G := by
  obtain ⟨hl, hpar⟩ := h.zombie_child hG hq hz
  have hI := h.note (e := .unstored p q) (fun _ => ⟨rfl, rfl, rfl, rfl⟩) rfl
    ⟨⟨_, hl⟩, hpar, h.hist⟩
  rwa [h.reached_same (l := .unstored p q :: s.hist) fun _ => rfl] at hI

omit hr in
/-- A call returns, and its caller is as before the call. -/
theorem returned {o : Option Reach} {e : Event n (Chan n)} (hG : G t = View.waiting none o)
    (he : (∃ p r, t = .inl p ∧ e = .waitRet p r ∧ (o = some (.freed r) ∨ o = none ∧ r = -1)) ∨
      ∃ pid r, e = .killRet t pid r ∧ (o = some (.marked pid) ∧ r = 0 ∨ o = none ∧ r = -1)) :
    Inv init nz (s.note e) (update G t View.out) := by
  have hret : reachedBy t s.hist = o := by
    rw [h.ret t, hG]
    rfl
  have hsame : (∀ x, Same init s.hist (e :: s.hist) x) ∧ forks (e :: s.hist) = forks s.hist ∧
      HistOk init nz (e :: s.hist) := by
    rcases he with ⟨p, r, rfl, rfl, ho⟩ | ⟨pid, r, rfl, ho⟩
    · exact ⟨fun _ => ⟨rfl, rfl, rfl, rfl⟩, rfl, by rwa [hret], h.hist⟩
    · exact ⟨fun _ => ⟨rfl, rfl, rfl, rfl⟩, rfl, by rwa [hret], h.hist⟩
  have hreach : ∀ u, reachedBy u (e :: s.hist) = if t = u then none else reachedBy u s.hist := by
    rcases he with ⟨p, r, rfl, rfl, -⟩ | ⟨pid, r, rfl, -⟩ <;> exact fun _ => rfl
  have hI := h.note hsame.1 hsame.2.1 hsame.2.2
  rw [h.reached fun u hu => (hreach u).trans (if_neg (Ne.symm hu)), hreach t, if_pos rfl, hG] at hI
  exact hI

end Inv

end Fork

end Process

end TrinityXv6
