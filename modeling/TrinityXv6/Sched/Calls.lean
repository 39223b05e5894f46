import TrinityXv6.Sched.Kernel

/-!
# Creating and ending processes

`kfork`, `kexit` and `kwait`, and the traps that lead to them.

A system call that works on the slot of another process relies on what it has found there after the
action that found it. As long as it holds the lock of the process this is because nobody else
changes the state of a process that has ended or of a free slot. Between `allocproc` and the end of
`kfork` the lock is given up once, and what protects the slot is that it is `USED`.
-/

namespace TrinityXv6

namespace Sched

open Threads
open Process (ProcState Proc)
open Function (update update_self update_of_ne update_eq_self)

variable {n : ℕ} {κ ℓ χ α : Type} {s s' : State n κ ℓ χ} {V : Views n κ ℓ}
  {G : Ghost n κ ℓ} {a : Agent n κ} {t u : Thread n κ} {v w : View n κ ℓ} {c : κ} {p q : Fin n}
  {st : ProcState} {x : Claim n}

/-! ## Views of system calls -/

/-- The view of `kfork` with the lock of the slot it is working on. -/
def View.on (v : View n κ ℓ) (x : Claim n) : View n κ ℓ :=
  View.take { v with claim := some x } (.proc x.slot)

theorem View.Free.on_base (h : v.Free) (ht : a.thread = .proc p) (x : Claim n) : (v.on x).Base a :=
  ⟨h.run, Nat.succ_le_succ h.length_le, fun l => by simp [View.on, View.take, h.held],
    calm_of_proc ht⟩

theorem View.claim_eq (h : v.claim = none) : { v with claim := none } = v := by
  cases v
  cases h
  rfl

/-- The view of code that a process does not come back to. -/
def View.Ended (v : View n κ ℓ) : Prop := v.place = .out ∧ v.claim = none

/-- The view of code that is between two calls. -/
def View.Idle (v : View n κ ℓ) : Prop := v.Free ∨ v.Ended

/-- What a claim says about the state. -/
theorem Claim.Holds.state (h : x.Holds s v) :
    (s.proc x.slot).state = .unused ∨ (s.proc x.slot).state = .used ∨
      (s.proc x.slot).state = .zombie := by
  cases x with
  | holding p st =>
    obtain ⟨hst | hst, hp, -⟩ := h
    · exact .inl (hp.trans hst)
    · exact .inr (.inr (hp.trans hst))
  | making p b => exact .inr (.inl h.1)

variable [DecidableEq κ]

/-! ## Working on a slot -/

/-- Code that simply runs is on a processor. -/
theorem Core.on_of_run (h : Core s V) (hp : (V t).place = .run) : ∃ c, s.cpuOf t = some c := by
  cases t with
  | sched x => exact ⟨x, h.places.here (by rw [hp]; rintro _ ⟨⟩)⟩
  | proc q =>
    by_contra hoff
    have hoff : s.cpuOf (.proc q) = none := by
      cases hc : s.cpuOf (.proc q) with
      | none => rfl
      | some c => exact absurd ⟨c, hc⟩ hoff
    by_cases hnext : ∃ x, (V (.sched x)).place.next = some q
    · obtain ⟨x, hx⟩ := hnext
      obtain ⟨-, -, hload | ⟨hload, -⟩⟩ := h.states.loading hx <;> rw [hp] at hload <;> cases hload
    · rcases h.states.off hoff fun x hx => hnext ⟨x, hx⟩ with
        ⟨-, hload | ⟨hload, -⟩⟩ | ⟨-, hload⟩ | ⟨-, hload⟩ <;> rw [hp] at hload <;> cases hload

/-- The lock of a process is held by one system call. -/
theorem Inv.eq_of_held (hI : Inv s G) (ht : (G (.main t)).place = .run)
    (hu : (G (.main u)).place = .run) {l : Lock n ℓ} (hlt : l ∈ (G (.main t)).held)
    (hlu : l ∈ (G (.main u)).held) : t = u := by
  have htop : ∀ {x}, l ∈ (G (.main x)).held → top s G x = G (.main x) := by
    intro x hx
    refine top_self (a := .main x) ?_
    show s.trapped x = false
    by_contra htr
    obtain ⟨-, -, hheld, -⟩ := hI.frozen x (by simpa using htr)
    rw [hheld] at hx
    cases hx
  have ht' := htop hlt
  have hu' := htop hlu
  obtain ⟨c, hc⟩ := hI.core.on_of_run (by rw [ht', ht])
  obtain ⟨c', hc'⟩ := hI.core.on_of_run (by rw [hu', hu])
  exact hI.core.eq_of_held hc hc' (by rwa [ht']) (by rwa [hu'])

/-- **No two system calls work on one slot.** -/
theorem Inv.sole (hI : Inv s G) {y : Claim n} (hx : (G (.main t)).claim = some x)
    (hy : (G (.main u)).claim = some y) (hxy : x.slot = y.slot) : t = u := by
  have hx' := hI.claims.holds hx
  have hy' := hI.claims.holds hy
  cases x with
  | holding p st =>
    obtain ⟨hst, hp, hrun, hl⟩ := hx'
    cases y with
    | holding q st' =>
      obtain ⟨-, -, hrun', hl'⟩ := hy'
      obtain rfl : p = q := hxy
      exact hI.eq_of_held hrun hrun' hl hl'
    | making q b =>
      obtain rfl : p = q := hxy
      rw [hy'.1] at hp
      rcases hst with hst | hst <;> rw [hst] at hp <;> cases hp
  | making p b =>
    cases y with
    | holding q st =>
      obtain ⟨hst, hq, -, -⟩ := hy'
      obtain rfl : p = q := hxy
      rw [hx'.1] at hq
      rcases hst with hst | hst <;> rw [hst] at hq <;> cases hq
    | making q b' =>
      obtain rfl : p = q := hxy
      exact hI.claims.unique hx hy

theorem Core.setClaim (h : Core s V) (hv : V t = v) (x : Option (Claim n)) :
    Core s (update V t { v with claim := x }) := by
  subst hv
  exact h.congr_locks (shape_update h.shape (h.shape t))
    (h.locks.congr (view_update View.held rfl) rfl rfl) (view_update View.place rfl)
    (view_update View.depth rfl) (view_update View.ie rfl) rfl rfl rfl rfl (fun _ => rfl)
    fun _ => rfl

/-- The rule for an action on the slot that the system call is working on, after which it may go on
working on it. -/
theorem runs_claim {f : State n κ ℓ χ → State n κ ℓ χ} {r : State n κ ℓ χ → α}
    {y : Option (Claim n)} (hx : v.claim = some x)
    (h : ∀ s V c, Core s V → V t = v → s.cpuOf t = some c → x.Holds s v →
      Core (f s) V ∧ (f s).trapped = s.trapped ∧ (Fair s.hist → Fair (f s).hist) ∧
      (∀ q, q ≠ x.slot → (f s).proc q = s.proc q ∧ (f s).ctx (.proc q) = s.ctx (.proc q)) ∧
      ∀ z, y = some z → z.slot = x.slot ∧ z.Holds (f s) { v with claim := y }) :
    Runs (.main t) v (always fun _ _ s => (r s, f s)) fun _ w => w = { v with claim := y } := by
  refine runs_inv fun s G c hI ha hG htop hc => ?_
  have hx' : (G (.main t)).claim = some x := by rw [hG, hx]
  have hholds : x.Holds s v := hG ▸ hI.claims.holds hx'
  obtain ⟨hcore, htr, hfair, hother, hnew⟩ := h s (top s G) c hI.core htop hc hholds
  refine ⟨{ v with claim := y }, hI.step ha (hcore.setClaim htop y) htr
    ⟨fun {u z} hz => ?_, fun {u w p b b'} hu hw => ?_⟩ (hfair hI.fair), rfl⟩
  · by_cases hut : u = t
    · subst hut
      simp only [update_self] at hz ⊢
      exact (hnew z hz).2
    · have hne : (.main u : Agent n κ) ≠ .main t := fun heq => hut (Agent.main.inj heq)
      simp only [update_of_ne hne] at hz ⊢
      have hslot : z.slot ≠ x.slot := fun heq => hut (hI.sole hz hx' heq)
      obtain ⟨hproc, hctx⟩ := hother z.slot hslot
      have hz' := hI.claims.holds hz
      cases z with
      | holding q st =>
        change (f s).proc q = s.proc q at hproc
        show _ ∧ ((f s).proc q).state = st ∧ _
        rw [hproc]
        exact hz'
      | making q b =>
        change (f s).proc q = s.proc q at hproc
        change (f s).ctx (.proc q) = s.ctx (.proc q) at hctx
        show ((f s).proc q).state = .used ∧ (b = true → (f s).ctx (.proc q) = .forkret)
        rw [hproc, hctx]
        exact hz'
  · -- who has just taken the slot is the only one
    have hold : ∀ {u b}, (update G (.main t) { v with claim := y } (.main u)).claim =
        some (.making p b) → u = t ∨ (G (.main u)).claim = some (.making p b) := by
      intro u b hu
      by_cases hut : u = t
      · exact .inl hut
      · rw [update_of_ne fun heq => hut (Agent.main.inj heq)] at hu
        exact .inr hu
    have hself : ∀ {b}, (update G (.main t) { v with claim := y } (.main t)).claim =
        some (.making p b) → p = x.slot := by
      intro b ht
      rw [update_self] at ht
      exact (hnew _ ht).1
    rcases hold hu with rfl | hu'
    · rcases hold hw with rfl | hw'
      · rfl
      · exact (hI.sole hw' hx' (hself hu)).symm
    · rcases hold hw with rfl | hw'
      · exact hI.sole hu' hx' (hself hw)
      · exact hI.claims.unique hu' hw'

/-- The system call looks at a slot whose lock it has, and will remember what it found. -/
theorem look_claim_runs (st : ProcState) {g : Proc n (Chan n χ) → Bool}
    (hg : ∀ u, g u = true → u.state = st) (hst : st = .unused ∨ st = .zombie)
    (hp : v.place = .run) (hl : .proc p ∈ v.held) :
    Runs (.main t) v (look p g) fun r w =>
      w = if r then { v with claim := some (.holding p st) } else v := by
  show Runs (.main t) v (act fun _ _ s => .done (g (s.proc p)) s []) _
  refine runs_inv fun s G c hI ha hG htop hc => ?_
  cases hgp : g (s.proc p) with
  | false =>
    refine ⟨v, ?_, rfl⟩
    rw [← hG, update_eq_self]
    exact hI
  | true =>
    refine ⟨{ v with claim := some (.holding p st) }, hI.step ha (hI.core.setClaim htop _) rfl
      ⟨fun {u z} hz => ?_, fun {u w q b b'} hu hw => ?_⟩ hI.fair, rfl⟩
    · by_cases hut : u = t
      · subst hut
        simp only [update_self] at hz ⊢
        obtain rfl := Option.some.inj hz
        exact ⟨hst, hg _ hgp, hp, hl⟩
      · simp only [update_of_ne fun heq => hut (Agent.main.inj heq)] at hz ⊢
        exact hI.claims.holds hz
    · have hold : ∀ {u b}, (update G (.main t) { v with claim := some (.holding p st) }
          (.main u)).claim = some (.making q b) → (G (.main u)).claim = some (.making q b) := by
        intro u b hu
        obtain ⟨-, ⟨⟩⟩ | ⟨-, hold⟩ := update_cases hu
        exact hold
      exact hI.claims.unique (hold hu) (hold hw)

/-- The system call stops relying on what it has found. -/
theorem look_drop_runs (g : Proc n (Chan n χ) → α) (hx : v.claim = some x) :
    Runs (.main t) v (look p g) fun _ w => w = { v with claim := none } :=
  runs_claim hx fun _ _ _ hcore _ _ _ =>
    ⟨hcore, rfl, id, fun _ _ => ⟨rfl, rfl⟩, by rintro _ ⟨⟩⟩

/-- **`freeproc` is applied to a process that is on no processor.** -/
theorem freeproc_runs (hx : v.claim = some x) (hp : v.place = .run) (hl : .proc x.slot ∈ v.held) :
    Runs (χ := χ) (.main t) v (freeproc x.slot) fun _ w => w = { v with claim := none } := by
  refine runs_claim hx fun s V c hcore hV hc hholds => ?_
  have hstate := hholds.state
  have hrun : (s.proc x.slot).state ≠ .running := by
    rcases hstate with h | h | h <;> rw [h] <;> rintro ⟨⟩
  obtain ⟨hoff, hpick⟩ := hcore.settled hc (by rw [hV]; exact hl) (by rw [hV]; exact hp) hrun
  have hset := hcore.setOut (w := { s.proc x.slot with
    trapframe := false, pagetable := false, pid := 0, chan := none, killed := false, xstate := 0,
    state := .unused }) hoff (fun y hy => hpick y (Place.pick_of_next hy)) hstate (.inl rfl)
  refine ⟨hset.congr rfl rfl rfl rfl rfl (fun _ => rfl) fun _ => rfl, rfl,
    fun h => ⟨⟨fun y hy => hpick y ((hcore.places.proc y _).mp hy), hoff⟩, h⟩,
    fun q hq => ⟨update_of_ne hq .., rfl⟩, by rintro _ ⟨⟩⟩

/-- `allocproc` takes a slot that it has found free. -/
theorem take_runs {f : Proc n (Chan n χ) → Proc n (Chan n χ)} (hf : ∀ u, (f u).state = .used)
    (hx : v.claim = some (.holding p .unused)) :
    Runs (.main t) v (edit p f) fun _ w => w = { v with claim := some (.making p false) } := by
  refine runs_claim hx fun s V c hcore _ _ hholds => ?_
  obtain ⟨-, hst, -⟩ := hholds
  obtain ⟨hoff, hnext⟩ := hcore.off_of_state (by rw [hst]; rintro ⟨⟩)
    (by rw [hst]; rintro (⟨⟨⟩⟩ | ⟨⟨⟩⟩ | ⟨⟨⟩⟩))
  refine ⟨hcore.setOut hoff hnext (.inl hst) (.inr (.inl (hf _))), rfl, id,
    fun q hq => ⟨update_of_ne hq .., rfl⟩, ?_⟩
  rintro _ ⟨⟩
  refine ⟨rfl, ?_, by rintro ⟨⟩⟩
  show (update s.proc p _ p).state = .used
  rw [update_self, hf]

/-- `kfork` makes the new process runnable. -/
theorem start_runs {f : Proc n (Chan n χ) → Proc n (Chan n χ)} (hf : ∀ u, (f u).state = .runnable)
    (hx : v.claim = some (.making p true)) :
    Runs (.main t) v (edit p f) fun _ w => w = { v with claim := none } := by
  refine runs_claim hx fun s V c hcore _ _ hholds => ?_
  obtain ⟨hst, hctx⟩ := hholds
  obtain ⟨hoff, hnext⟩ := hcore.off_of_state (by rw [hst]; rintro ⟨⟩)
    (by rw [hst]; rintro (⟨⟨⟩⟩ | ⟨⟨⟩⟩ | ⟨⟨⟩⟩))
  exact ⟨hcore.setOut hoff hnext (.inr (.inl hst)) (.inr (.inr ⟨hf _, hctx rfl⟩)), rfl, id,
    fun q hq => ⟨update_of_ne hq .., rfl⟩, by rintro _ ⟨⟩⟩

/-- The context of a slot that `kfork` is working on, once it is set up. -/
theorem Core.setContext (h : Core s V) (hst : (s.proc p).state = .used) :
    Core ((s.setCtx (.proc p) .forkret).note (.born p)) V := by
  obtain ⟨hoff, hnext⟩ := h.off_of_state (by rw [hst]; rintro ⟨⟩)
    (by rw [hst]; rintro (⟨⟨⟩⟩ | ⟨⟨⟩⟩ | ⟨⟨⟩⟩))
  have hout : (V (.proc p)).place = .out := by
    rcases h.states.off hoff hnext with ⟨hst', -⟩ | ⟨hst', -⟩ | ⟨-, hout⟩
    · rw [hst] at hst'
      cases hst'
    · rw [hst] at hst'
      cases hst'
    · exact hout
  have hctx : ∀ {u}, u ≠ .proc p →
      ((s.setCtx (.proc p) .forkret).note (.born p)).ctx u = s.ctx u := fun hu =>
    update_of_ne hu ..
  have hopened : ∀ {u}, u ≠ .proc p → opened u (.born p :: s.hist) = opened u s.hist := fun hu =>
    if_neg hu
  have hne : ∀ {u P}, (V u).place = P → P ≠ .out → u ≠ .proc p := by
    rintro u P hu hP rfl
    exact hP (hu.symm.trans hout)
  refine ⟨h.shape, h.places.congr (fun _ => rfl) rfl fun _ => rfl,
    h.locks.congr (fun _ => rfl) rfl rfl,
    h.irqs.congr (fun _ => rfl) (fun _ => rfl) rfl (fun _ => ⟨rfl, rfl, rfl⟩)
      (fun u hu => hopened (hne rfl hu)) (fun _ => id) (fun _ => id) fun _ _ => id,
    ⟨fun hu => h.ctxs.pinned hu, fun {u _ _ _} hu => ?_, fun {u _ _} hu => ?_, fun {u} hu hn => ?_,
      fun {u _} hu hn => ?_, h.ctxs.entry, fun {q} hq hb => ?_⟩,
    ⟨fun hq => h.states.on hq, fun {x q} hq => ?_, fun {q} hq hn => ?_⟩⟩
  · rw [hctx (hne hu (by rintro ⟨⟩)), h.ctxs.switching hu]
  · rw [hctx (hne hu (by rintro ⟨⟩)), h.ctxs.loading hu]
  · rw [hctx (hne hu (by rintro ⟨⟩)), h.ctxs.parked hu hn]
  · rw [hctx (hne hu (by rintro ⟨⟩)), h.ctxs.away hu hn]
  · by_cases hqp : q = p
    · subst hqp
      exact if_pos rfl
    · rw [hctx (proc_ne hqp)] at hb
      exact (hopened (proc_ne hqp)).trans (h.ctxs.born hq hb)
  · have hqp : q ≠ p := by
      rintro rfl
      exact hnext x hq
    have hold := h.states.loading hq
    unfold Loadable
    rw [hctx (proc_ne hqp)]
    exact hold
  · by_cases hqp : q = p
    · subst hqp
      exact .inr (.inr ⟨.inr (.inl hst), hout⟩)
    · unfold Resting Loadable
      rw [hctx (proc_ne hqp)]
      exact h.states.off hq hn

theorem setContext_runs {b : Bool} (hx : v.claim = some (.making p b)) :
    Runs (χ := χ) (.main t) v (setContext p) fun _ w =>
      w = { v with claim := some (.making p true) } := by
  refine runs_claim hx fun s V c hcore _ _ hholds => ?_
  refine ⟨hcore.setContext hholds.1, rfl, fun h => ⟨trivial, h⟩, fun q hq => ⟨rfl, ?_⟩, ?_⟩
  · exact update_of_ne (proc_ne hq) ..
  · rintro _ ⟨⟩
    exact ⟨rfl, hholds.1, fun _ => update_self ..⟩

/-! ## Entering and leaving the kernel -/

theorem userret_runs (h : v.Free) : Runs (χ := χ) a v userret fun _ w => w.Idle := by
  have hfree : ∀ b, View.Free { v with ie := b } := fun b => ⟨h.run, h.depth, h.held, h.claim⟩
  refine Runs.seq (setSie_runs h) (Safe.mono (setSie_runs (hfree false)) ?_)
  rintro _ _ rfl
  exact .inl (hfree true)

/-- A trap comes from user mode, and so not from a process that has ended. -/
theorem trap_runs (h : v.Idle) : Runs (χ := χ) a v trap fun _ w => w.Free := by
  refine runs_act fun s V c hcore hV hc => ?_
  cases ht : a.thread with
  | sched x => trivial
  | proc p =>
    rw [ht] at hV hc
    cases he : s.entry p with
    | true =>
      simp only [he, if_true]
      trivial
    | false =>
      have hfree : v.Free := by
        rcases h with h | ⟨hout, -⟩
        · exact h
        · have := (hcore.ctxs.entry p).mpr ⟨by rw [hc]; rintro ⟨⟩, by rw [hV, hout]⟩
          rw [he] at this
          cases this
      subst hV
      simp only [he, Bool.false_eq_true, if_false]
      exact ⟨{ V (.proc p) with ie := false }, hcore.setSie hc hfree.run hfree.depth false
        ⟨hfree.run, hfree.depth, hfree.held, rfl⟩, .of_eq rfl id rfl fun _ => rfl,
        .of_none hfree.claim hfree.claim, hfree.run, hfree.depth, hfree.held, hfree.claim⟩

/-- The code of a new process begins with the lock that the scheduler took. -/
theorem enterForkret_runs (h : v.Idle) (ht : a.thread = .proc p) :
    Runs (χ := χ) a v enterForkret fun _ w =>
      ∃ w', w'.Free ∧ w = View.take w' (.proc p) := by
  refine runs_act fun s V c hcore hV hc => ?_
  rw [ht] at hV hc ⊢
  cases he : s.entry p with
  | false =>
    simp only [he, Bool.false_eq_true, if_false]
    trivial
  | true =>
    have hout := ((hcore.ctxs.entry p).mp he).2
    obtain ⟨hd, hl, hie⟩ := (hcore.shape (.proc p)).out hout
    have hclaim : v.claim = none := by
      rcases h with h | h
      · exact h.claim
      · exact h.2
    subst hV
    simp only [he, if_true]
    refine ⟨{ V (.proc p) with place := .run }, hcore.enterForkret he,
      .of_eq rfl id rfl fun _ => rfl,
      .of_none hclaim hclaim, ⟨.run, 0, [], false, none⟩, ⟨rfl, rfl, rfl, rfl⟩, ?_⟩
    simp [View.take, hd, hl, hie, hclaim]

/-! ## The system calls -/

section Calls

variable [DecidableEq ℓ] {status : Int32}

theorem allocpid_runs (hp : v.place = .run) (hd : v.held.length ≤ v.depth) (hl : .pid ∉ v.held)
    (hcalm : Calm a v) : Runs (χ := χ) a v allocpid fun _ w => w = v := by
  refine Runs.seq (acquire_runs hp hd hl hcalm) ?_
  refine Safe.bind (Q := fun _ w => w = v.take .pid) (Safe.mono (runs_same (Q := fun _ => True)
    fun s V c hcore _ _ => ⟨hcore.congr rfl rfl rfl rfl rfl (fun _ => rfl) fun _ => rfl,
      .of_eq rfl id rfl fun _ => rfl, trivial⟩) fun _ _ h => h.1) ?_
  rintro pid _ rfl
  exact Runs.seq (release_runs hp hd (by rintro _ _ ⟨⟩)) rfl

theorem giveUp_runs (h : v.Free) (hx : x.slot = p) :
    Runs (χ := χ) (.main t) (v.on x) (giveUp p) fun _ w => w = v := by
  subst hx
  refine Runs.seq (freeproc_runs rfl h.run (.head _))
    (Safe.mono (release_runs (v := { v with claim := none }) h.run h.length_le
      fun _ _ _ => by rintro ⟨⟩) ?_)
  rintro _ _ rfl
  exact View.claim_eq h.claim

theorem kexitLast_runs (h : v.Free) (ht : a.thread = .proc p) :
    Runs (χ := χ) a (v.take .wait) (kexitLast status p) fun _ w => w.Ended := by
  refine Runs.seq (acquire_runs h.run (Nat.succ_le_succ h.length_le)
    (by simp [View.take, h.held]) (calm_of_proc ht)) ?_
  refine Runs.seq (leave_runs ht h.run (.head _) h.claim (fun _ => rfl) (.inr (.inr rfl)))
    ?_
  refine Runs.seq (release_runs_of (by simp [View.take, h.held, h.depth])
    (by simp [View.take]) (.inr ⟨⟨_, rfl⟩, by rintro _ ⟨⟩⟩) (by rintro _ _ ⟨⟩)) ?_
  refine Safe.bind (sched_runs ht rfl (by simp [View.take, View.drop, h.depth])
    (by simp [View.take, View.drop, h.held]) (.inr (.inr rfl)) h.claim) ?_
  rintro _ _ ⟨rfl, rfl⟩
  exact ⟨rfl, h.claim⟩

/-- The lock of a child, and then `wait_lock`, are given up. -/
theorem releaseBoth_runs {pp : Fin n} {r : α} (h : v.Free) :
    Runs (χ := χ) a (View.take { v.take .wait with claim := none } (.proc pp))
      (do release (.proc pp); release .wait; pure r) fun _ w => w = v := by
  refine Runs.seq (release_runs h.run (Nat.succ_le_succ h.length_le) (by rintro _ _ _ ⟨⟩)) ?_
  refine Runs.seq (release_runs (v := { v with claim := none }) h.run h.length_le
    (by rintro _ _ ⟨⟩)) ?_
  exact View.claim_eq h.claim

theorem kwaitReap_runs {pp : Fin n} (h : v.Free) :
    Runs (χ := χ) (.main t) ((v.take .wait).on (.holding pp .zombie)) (kwaitReap pp fault)
      fun _ w => w = v := by
  cases fault with
  | true =>
    refine Safe.seq (look_drop_runs _ rfl) fun pid => ?_
    exact releaseBoth_runs h
  | false =>
    refine Safe.seq (look_runs _) fun pid => ?_
    refine Runs.seq (edit_runs fun _ => rfl) ?_
    exact Runs.seq (freeproc_runs (x := .holding pp .zombie) rfl h.run (.head _))
      (releaseBoth_runs h)

variable [DecidableEq χ]

/-- What `allocproc` returns with: the slot it has taken and set up, with its lock, or nothing. -/
def View.Allocated (v : View n κ ℓ) : Option (Fin n) → View n κ ℓ → Prop
  | some p, w => w = v.on (.making p true)
  | none, w => w = v

variable {fault : Bool} {init : Fin n} {f : Fork ℓ χ} {close copy : Work ℓ χ}

section

variable (h : v.Free) (ht : a = .main (.proc q))
include h ht

theorem allocFound_runs : Runs a (v.on (.holding p .unused)) (allocFound f p) v.Allocated := by
  subst ht
  have hbase : ∀ x : Claim n, (v.on x).Base (.main (.proc q)) := fun x => h.on_base rfl x
  refine Safe.bind (allocpid_runs (hbase _).run (hbase _).length_le
    (by simp [View.on, View.take, h.held]) (hbase _).calm) ?_
  rintro pid _ rfl
  refine Runs.seq (take_runs (fun _ => rfl) rfl) ?_
  refine Runs.seq (run_runs_quiet (hbase (.making p false)) f.mem_quiet) ?_
  cases f.trapframe with
  | false => exact Runs.seq (giveUp_runs (v := v) (x := .making p false) h rfl) rfl
  | true =>
    refine Runs.seq (edit_runs fun _ => rfl)
      (Runs.seq (run_runs_quiet (hbase (.making p false)) f.mem_quiet) ?_)
    cases f.pagetable with
    | false => exact Runs.seq (giveUp_runs (v := v) (x := .making p false) h rfl) rfl
    | true => exact Runs.seq (edit_runs fun _ => rfl) (Runs.seq (setContext_runs rfl) rfl)

theorem allocprocFrom_runs (ps : List (Fin n)) : Runs a v (allocprocFrom f ps) v.Allocated := by
  subst ht
  have hclear : v.Clear (.main (.proc q)) := h.clear (calm_of_proc rfl)
  induction ps with
  | nil => rfl
  | cons p ps ih =>
    refine Runs.seq (hclear.acquire p) ?_
    refine Safe.bind (look_claim_runs .unused (fun u hu => of_decide_eq_true hu) (.inl rfl)
      h.run (.head _)) ?_
    rintro unused _ rfl
    cases unused with
    | true => exact allocFound_runs h rfl
    | false => exact Runs.seq (hclear.release p) ih

theorem kforkInto_runs {np : Fin n} :
    Runs a (v.on (.making np true)) (kforkInto f q np) fun _ w => w = v := by
  subst ht
  have hbase : (v.on (.making np true)).Base (.main (.proc q)) := h.on_base rfl _
  have hcalm : Calm (.main (.proc q)) { v with claim := some (.making np true) } :=
    calm_of_proc rfl
  refine Runs.seq (run_runs_quiet hbase f.mem_quiet) ?_
  cases f.uvmcopy with
  | false => exact Runs.seq (giveUp_runs h rfl) rfl
  | true =>
    refine Runs.seq (run_runs_quiet hbase f.dup_quiet) (Safe.bind (look_runs _) ?_)
    rintro u _ rfl
    refine Runs.seq (edit_runs fun _ => rfl) (Safe.bind (look_runs _) ?_)
    rintro pid _ rfl
    -- the lock is given up, but the slot is `USED`
    refine Runs.seq (release_runs h.run h.length_le
      (by rintro _ _ ⟨⟩ ⟨⟩)) ?_
    refine Runs.seq (acquire_runs h.run h.length_le (h.not_mem _) hcalm) ?_
    refine Runs.seq (edit_runs fun _ => rfl) ?_
    refine Runs.seq (release_runs h.run h.length_le (by rintro _ _ ⟨⟩)) ?_
    refine Runs.seq (acquire_runs h.run h.length_le (h.not_mem _) hcalm) ?_
    refine Runs.seq (start_runs (fun _ => rfl) rfl) ?_
    refine Runs.seq (Safe.mono (release_runs (v := { v with claim := none }) h.run h.length_le
      (by rintro _ _ _ ⟨⟩)) ?_) (w := v) rfl
    rintro _ _ rfl
    exact View.claim_eq h.claim

theorem kfork_runs : Runs a v (kfork f) fun _ w => w = v := by
  subst ht
  refine Safe.seq_eq (mine_runs rfl h.plain h.length_le) ?_
  refine Safe.bind (allocprocFrom_runs h rfl _) ?_
  rintro r w hw
  cases r with
  | none =>
    obtain rfl : w = _ := hw
    rfl
  | some np =>
    obtain rfl : w = _ := hw
    exact kforkInto_runs h rfl

end

theorem reparentFrom_runs (h : v.Clear a) (qs : List (Fin n)) :
    Runs (χ := χ) a v (reparentFrom init p qs) fun _ w => w = v := by
  induction qs with
  | nil => rfl
  | cons q qs ih =>
    refine Safe.seq (look_runs _) fun child => ?_
    cases child with
    | true => exact Runs.seq (edit_runs fun _ => rfl) (Runs.seq (wakeup_runs h) ih)
    | false => exact ih

theorem kexit_runs (h : v.Free) (ht : a.thread = .proc p) :
    Runs a v (kexit init close status) fun _ w => w.Ended := by
  have hwait : (v.take .wait).Clear a := ⟨h.run, Nat.succ_le_succ h.length_le,
    fun q => by simp [View.take, h.held], h.claim, calm_of_proc ht⟩
  refine Safe.bind (mine_runs ht h.plain h.length_le) ?_
  rintro r _ ⟨rfl, rfl⟩
  by_cases hinit : r = init
  · rw [if_pos hinit]
    exact runs_act fun s V c _ _ _ => rfl
  · rw [if_neg hinit]
    refine Runs.seq (run_runs_proc ht h) (Runs.seq (edit_runs fun _ => rfl) ?_)
    refine Runs.seq (acquire_runs h.run h.length_le (h.not_mem _) (calm_of_proc ht)) ?_
    refine Runs.seq (reparentFrom_runs hwait _) (Safe.bind (look_runs _) ?_)
    rintro parent _ rfl
    exact Runs.seq (wakeup_runs hwait) (kexitLast_runs h ht)

/-- What a turn of `kwait` over the table ends with: it has given up `wait_lock` if it returns. -/
def View.Scanned (v : View n κ ℓ) : Scan → View n κ ℓ → Prop
  | .ret _, w => w = v
  | .kids _, w => w = v.take .wait

section

variable (h : v.Free) (hcopy : copy.ops.all Op.quiet = true)
include h hcopy

theorem kwaitFrom_runs {havekids : Bool} (pps : List (Fin n)) :
    Runs (.main (.proc q)) (v.take .wait) (kwaitFrom q copy fault havekids pps) v.Scanned := by
  have hwait : (v.take .wait).Clear (.main (.proc q)) := ⟨h.run, Nat.succ_le_succ h.length_le,
    fun q => by simp [View.take, h.held], h.claim, calm_of_proc rfl⟩
  induction pps generalizing havekids with
  | nil => rfl
  | cons pp pps ih =>
    refine Safe.seq (look_runs _) fun child => ?_
    cases child with
    | false => exact ih
    | true =>
      refine Runs.seq (hwait.acquire pp) ?_
      refine Safe.bind (look_claim_runs .zombie (fun u hu => of_decide_eq_true hu)
        (.inr rfl) h.run (.head _)) ?_
      rintro zombie _ rfl
      cases zombie with
      | false => exact Runs.seq (hwait.release pp) ih
      | true =>
        have hbase : ((v.take .wait).on (.holding pp .zombie)).Base (.main (.proc q)) :=
          ⟨h.run, Nat.succ_le_succ (Nat.succ_le_succ h.length_le),
            fun l => by simp [View.on, View.take, h.held], calm_of_proc rfl⟩
        refine Runs.seq (run_runs_quiet hbase hcopy) (Safe.bind (kwaitReap_runs h) ?_)
        rintro r _ rfl
        rfl

theorem kwaitLoop_runs (turns : ℕ) :
    Runs (.main (.proc q)) (v.take .wait) (kwaitLoop q copy fault turns) fun _ w => w = v := by
  have hwait : (v.take .wait).Clear (.main (.proc q)) := ⟨h.run, Nat.succ_le_succ h.length_le,
    fun q => by simp [View.take, h.held], h.claim, calm_of_proc rfl⟩
  have hrelease : Runs (χ := χ) (.main (.proc q)) (v.take .wait) (release .wait) fun _ w => w = v :=
    release_runs h.run h.length_le (by rintro _ _ ⟨⟩)
  induction turns with
  | zero => exact runs_act fun s V c _ _ _ => trivial
  | succ turns ih =>
    refine Safe.bind (kwaitFrom_runs h hcopy _) ?_
    rintro (r | havekids) w hw
    · obtain rfl : w = v := hw
      rfl
    · obtain rfl : w = v.take .wait := hw
      have hnext : ∀ k : Bool, Runs (.main (.proc q)) (v.take .wait)
          (if k then do
            release .wait
            pure (-1)
          else do
            sleepPrepare (.inl q)
            release .wait
            sleep
            acquire .wait
            kwaitLoop q copy fault turns) fun _ w => w = v := by
        rintro (_ | _)
        · refine Runs.seq (sleepPrepare_runs rfl hwait) (Runs.seq hrelease ?_)
          exact Runs.seq (sleep_runs rfl h) (Runs.seq (acquire_runs h.run h.length_le (h.not_mem _)
            (calm_of_proc rfl)) ih)
        · exact Runs.seq hrelease rfl
      cases havekids with
      | false => exact hnext true
      | true =>
        refine Safe.seq (killed_runs hwait) fun k => ?_
        exact hnext k

theorem kwait_runs {turns : ℕ} :
    Runs (.main (.proc q)) v (kwait copy fault turns) fun _ w => w = v := by
  refine Safe.seq_eq (mine_runs rfl h.plain h.length_le) ?_
  exact Runs.seq (acquire_runs h.run h.length_le (h.not_mem _) (calm_of_proc rfl))
    (kwaitLoop_runs h hcopy turns)

end

/-! ## Traps -/

theorem usertrapLast_runs {timer : Bool} (h : v.Free) (ht : a.thread = .proc q) :
    Runs a v (usertrapLast init close q timer) fun _ w => w.Idle := by
  refine Safe.seq (killed_runs (h.clear (calm_of_proc ht))) fun k => ?_
  cases k with
  | true => exact Safe.mono (kexit_runs h ht) fun _ _ hw => .inr hw
  | false =>
    cases timer with
    | true => exact Runs.seq (yield_runs ht h) (userret_runs h)
    | false => exact userret_runs h

theorem syscall_runs (h : v.Free) (call : Syscall ℓ χ) :
    Runs (.main (.proc q)) v (syscall init close q call) fun _ w => w.Idle := by
  cases call with
  | kfork f => exact Runs.seq (kfork_runs h rfl) (usertrapLast_runs h rfl)
  | kexit status => exact Safe.mono (kexit_runs h rfl) fun _ _ hw => .inr hw
  | kwait copy hcopy fault turns => exact Runs.seq (kwait_runs h hcopy) (usertrapLast_runs h rfl)
  | other x => exact Runs.seq (run_runs_proc rfl h) (usertrapLast_runs h rfl)

/-- **`usertrap`** -/
theorem usertrap_runs {cause : Cause ℓ χ} (h : v.Idle) :
    Runs (.main (.proc q)) v (usertrap init close cause) fun _ w => w.Idle := by
  refine Safe.bind (trap_runs h) ?_
  rintro _ w hw
  have hclear : w.Clear (.main (.proc q)) := hw.clear (calm_of_proc rfl)
  refine Safe.bind (mine_runs rfl hw.plain hw.length_le) ?_
  rintro p _ ⟨rfl, rfl⟩
  cases cause with
  | syscall call =>
    refine Safe.seq (killed_runs hclear) fun k => ?_
    cases k with
    | true => exact Safe.mono (kexit_runs hw rfl) fun _ _ hw => .inr hw
    | false =>
      refine Runs.seq (setSie_runs hw) (syscall_runs ?_ call)
      exact ⟨hw.run, hw.depth, hw.held, hw.claim⟩
  | device x hbrief timer =>
    exact Runs.seq (run_runs_brief hw (calm_of_proc rfl) hbrief) (usertrapLast_runs hw rfl)
  | fault x hbrief handled =>
    refine Runs.seq (run_runs_brief hw (calm_of_proc rfl) hbrief) ?_
    cases handled with
    | true => exact usertrapLast_runs hw rfl
    | false => exact Runs.seq (setkilled_runs hclear) (usertrapLast_runs hw rfl)

/-- **`forkret`** -/
theorem forkret_runs {first : Option (Work ℓ χ)} (h : v.Idle) :
    Runs (.main (.proc q)) v (forkret first) fun _ w => w.Idle := by
  refine Safe.bind (enterForkret_runs h rfl) ?_
  rintro _ _ ⟨w, hw, rfl⟩
  have hclear : w.Clear (.main (.proc q)) := hw.clear (calm_of_proc rfl)
  refine Safe.bind (mine_runs rfl hw.plain (Nat.succ_le_succ hw.length_le)) ?_
  rintro p _ ⟨rfl, rfl⟩
  refine Runs.seq (hclear.release p) ?_
  cases first with
  | none => exact userret_runs hw
  | some x => exact Runs.seq (run_runs_proc rfl hw) (userret_runs hw)

end Calls

end Sched

end TrinityXv6
