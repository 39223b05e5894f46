import TrinityXv6.Sched.Step

/-!
# Context switches

The actions that move a processor from one stack to another, on both sides: a process leaves, saves
its context and goes to the scheduler of its processor; a scheduler picks a process, saves its own
context and goes to the process.
-/

namespace TrinityXv6

namespace Sched

open Threads
open Process (ProcState Proc)
open Function (update update_self update_of_ne)

variable {n : ℕ} {κ ℓ χ : Type} {s s' : State n κ ℓ χ} {V : Views n κ ℓ} {t : Thread n κ} {c : κ}
  {p : Fin n} {st : ProcState}

/-! ## What a change of place leaves alone -/

section Frame

variable [DecidableEq κ] {v : View n κ ℓ}

/-- Only the stack `t` changes its place, and perhaps its context. -/
theorem Ctxs.act (h : Ctxs s V) (hcpuOf : s'.cpuOf = s.cpuOf)
    (hctx : ∀ u, u ≠ t → s'.ctx u = s.ctx u) (hopened : s'.hist = s.hist)
    (hpinned : ∀ c st done, v.place = .switching c st done → s.cpuOf t = some c)
    (hswitching : ∀ c st done, v.place = .switching c st (some done) →
      s'.ctx t = if done then .saved else .saving)
    (hloading : ∀ q done, v.place = .loading q (some done) →
      s'.ctx t = if done then .saved else .saving) (hon : s.cpuOf t ≠ none)
    (hentry : ∀ q, s'.entry q = true ↔
      s.cpuOf (.proc q) ≠ none ∧ (update V t v (.proc q)).place = .out)
    (hout : v.place = .out → (V t).place = .out ∧ ∀ q, t = .proc q → s'.entry q = s.entry q) :
    Ctxs s' (update V t v) where
  pinned {u c st done} hu := by
    rw [hcpuOf]
    rcases update_cases hu with ⟨rfl, hnew⟩ | ⟨-, hu⟩
    · exact hpinned c st done hnew
    · exact h.pinned hu
  switching {u c st done} hu := by
    rcases update_cases hu with ⟨rfl, hnew⟩ | ⟨hut, hu⟩
    · exact hswitching c st done hnew
    · rw [hctx u hut, h.switching hu]
  loading {u q done} hu := by
    rcases update_cases hu with ⟨rfl, hnew⟩ | ⟨hut, hu⟩
    · exact hloading q done hnew
    · rw [hctx u hut, h.loading hu]
  parked {u} hu hoff := by
    rw [hcpuOf] at hoff
    by_cases hut : u = t
    · subst hut
      exact absurd hoff hon
    · rw [update_of_ne hut] at hu
      rw [hctx u hut, h.parked hu hoff]
  away {u q} hu hoff := by
    rw [hcpuOf] at hoff
    by_cases hut : u = t
    · subst hut
      exact absurd hoff hon
    · rw [update_of_ne hut] at hu
      rw [hctx u hut, h.away hu hoff]
  entry q := by rw [hcpuOf, hentry]
  born {q} hq hb := by
    rw [hcpuOf] at hb
    rw [hopened]
    rcases update_cases hq with ⟨rfl, hnew⟩ | ⟨hqt, hq⟩
    · obtain ⟨hold, hsame⟩ := hout hnew
      rw [hsame q rfl] at hb
      refine h.born hold (hb.imp_right fun hb => absurd hb.1 hon)
    · rw [hctx _ hqt] at hb
      refine h.born hq (hb.imp_left fun hb => ?_)
      rw [h.entry]
      rw [hentry, update_of_ne hqt] at hb
      exact hb

/-- The process `p` changes its place and its state, on a processor. -/
theorem States.act (h : States s V) (hcpuOf : s'.cpuOf = s.cpuOf)
    (hctx : ∀ u, u ≠ .proc p → s'.ctx u = s.ctx u)
    (hstate : ∀ q, q ≠ p → (s'.proc q).state = (s.proc q).state)
    (hon : s.cpuOf (.proc p) ≠ none) (hp : (s'.proc p).state = v.place.state) :
    States s' (update V (.proc p) v) := by
  refine ⟨fun {q} hq => ?_, fun {x q} hq => ?_, fun {q} hq hn => ?_⟩
  · rw [hcpuOf] at hq
    by_cases hqp : q = p
    · subst hqp
      rw [update_self, hp]
    · rw [update_proc_of_ne _ _ hqp, hstate q hqp, h.on hq]
  · rw [update_proc_sched] at hq
    have hold := h.loading hq
    have hqp : q ≠ p := by
      rintro rfl
      exact hon hold.1
    unfold Loadable
    rw [hcpuOf, update_proc_of_ne _ _ hqp, hstate q hqp, hctx _ (proc_ne hqp)]
    exact hold
  · rw [hcpuOf] at hq
    have hqp : q ≠ p := by
      rintro rfl
      exact hon hq
    unfold Resting Loadable
    rw [update_proc_of_ne _ _ hqp, hstate q hqp, hctx _ (proc_ne hqp)]
    exact h.off hq hn

/-- The code on the stack `t` changes its place, and has found its `intena` already. -/
theorem Irqs.move (h : Irqs s V) (hdepth : v.depth = (V t).depth) (hie : v.ie = (V t).ie)
    (hcpuOf : s'.cpuOf = s.cpuOf)
    (hcpu : ∀ x, (s'.cpu x).noff = (s.cpu x).noff ∧ (s'.cpu x).sie = (s.cpu x).sie ∧
      (s'.cpu x).intena = (s.cpu x).intena)
    (hhist : s'.hist = s.hist) (hout : (V t).place ≠ .out) (hparked : (V t).place ≠ .parked)
    (haway : ∀ q, (V t).place ≠ .away q) : Irqs s' (update V t v) := by
  have hne : ∀ {u P}, (V u).place = P → (V t).place ≠ P →
      (update V t v u).place = P := by
    intro u P hu ht
    have hut : u ≠ t := by
      rintro rfl
      exact ht hu
    rw [update_of_ne hut, hu]
  exact h.congr (view_update View.depth hdepth) (view_update View.ie hie) hcpuOf hcpu
    (fun _ _ => by rw [hhist]) (fun u hu => hne hu hout) (fun u hu => hne hu hparked)
    fun u q hu => hne hu (haway q)

/-- The place of a process that is on a processor, and is not at the start of `forkret`. -/
theorem Ctxs.entry_update (h : Ctxs s V) (hold : (V t).place ≠ .out) (hnew : v.place ≠ .out)
    (q : Fin n) : s.entry q = true ↔
      s.cpuOf (.proc q) ≠ none ∧ (update V t v (.proc q)).place = .out := by
  rw [h.entry]
  refine and_congr_right fun _ => ?_
  by_cases hqt : .proc q = t
  · rw [hqt, update_self]
    exact iff_of_false hold hnew
  · rw [update_of_ne hqt]

/-- A stack goes to a plain place from one at which it was not at the start of `forkret`. -/
theorem Ctxs.plain (h : Ctxs s V) (hcpuOf : s'.cpuOf = s.cpuOf) (hctx : s'.ctx = s.ctx)
    (hentry : s'.entry = s.entry) (hhist : s'.hist = s.hist) (hon : s.cpuOf t ≠ none)
    (hold : (V t).place ≠ .out) (hv : v.place.Plain) : Ctxs s' (update V t v) := by
  refine h.act hcpuOf (fun u _ => by rw [hctx]) hhist (fun _ _ _ hp => ?_) (fun _ _ _ hp => ?_)
    (fun _ _ hp => ?_) hon (fun q => ?_) fun hp => absurd hp hv.ne_out
  · rw [hp] at hv
    exact hv.elim
  · rw [hp] at hv
    exact hv.elim
  · rw [hp] at hv
    exact hv.elim
  · rw [hentry]
    exact h.entry_update hold hv.ne_out q

/-- A process changes its view. -/
theorem Places.update_proc (h : Places s V) (hcpuOf : s'.cpuOf = s.cpuOf)
    (hproc : ∀ x, (s'.cpu x).proc = (s.cpu x).proc) : Places s' (update V (.proc p) v) :=
  h.congr_pick (fun x => by rw [update_proc_sched]) (fun x q => by rw [update_proc_sched]) hcpuOf
    hproc

/-- A scheduler that is on its processor changes its view. -/
theorem Places.update_sched (h : Places s V) (ht : s.cpuOf (.sched c) = some c)
    (hcpuOf : s'.cpuOf = s.cpuOf) (hself : (s'.cpu c).proc = v.place.pick)
    (hcpu : ∀ x, x ≠ c → (s'.cpu x).proc = (s.cpu x).proc)
    (hpick : ∀ x q, v.place.pick = some q → (V (.sched x)).place.pick ≠ some q) :
    Places s' (update V (.sched c) v) := by
  refine ⟨by rw [hcpuOf]; exact h.one, by rw [hcpuOf]; exact h.home, fun x q => ?_,
    fun {x y q} hx hy => ?_, fun {q x} hq => ?_, fun {x q} hx hn => ?_, fun {x} hx => ?_⟩
  · by_cases hx : x = c
    · rw [hx, hself, update_self]
    · rw [hcpu x hx, update_sched_of_ne _ _ hx, h.proc x q]
  · -- no other scheduler has picked the process
    by_cases hxc : x = c
    · by_cases hyc : y = c
      · rw [hxc, hyc]
      · rw [hxc, update_self] at hx
        rw [update_sched_of_ne _ _ hyc] at hy
        exact absurd hy (hpick y q hx)
    · rw [update_sched_of_ne _ _ hxc] at hx
      by_cases hyc : y = c
      · rw [hyc, update_self] at hy
        exact absurd hx (hpick x q hy)
      · rw [update_sched_of_ne _ _ hyc] at hy
        exact h.unique hx hy
  · rw [hcpuOf] at hq
    have hxc : x ≠ c := by
      rintro rfl
      cases h.one hq ht
    rw [update_sched_of_ne _ _ hxc]
    exact h.guest hq
  · rw [hcpuOf] at hn ⊢
    have hxc : x ≠ c := by
      rintro rfl
      exact State.on_of_eq ht hn
    rw [update_sched_of_ne _ _ hxc] at hx
    exact h.away hx hn
  · rw [hcpuOf]
    by_cases hxc : x = c
    · rwa [hxc]
    · rw [update_sched_of_ne _ _ hxc] at hx
      exact h.here hx

omit [DecidableEq κ] in
/-- A stack that simply runs with the lock of one process. -/
theorem Shape.run_of_held {w : View n κ ℓ} (hd : w.depth = 1) (hl : w.held = [.proc p]) :
    Shape t { w with place := .run } := by
  rw [hl, hd]
  exact ⟨le_rfl, List.nodup_singleton _⟩

end Frame

variable [DecidableEq κ]

/-! ## A processor changes stacks -/

section Goto

variable {u w : Thread n κ} {x : κ}

@[simp] theorem goto_cpuOf_self : (s.goto c t u).cpuOf u = some c := update_self ..

theorem goto_cpuOf_left (h : t ≠ u) : (s.goto c t u).cpuOf t = none := by
  show update (update s.cpuOf t none) u (some c) t = none
  rw [update_of_ne h, update_self]

theorem goto_cpuOf_of_ne (ht : w ≠ t) (hu : w ≠ u) : (s.goto c t u).cpuOf w = s.cpuOf w := by
  show update (update s.cpuOf t none) u (some c) w = _
  rw [update_of_ne hu, update_of_ne ht]

theorem ne_of_goto_none (h : (s.goto c t u).cpuOf w = none) : w ≠ u := by
  rintro rfl
  rw [goto_cpuOf_self] at h
  cases h

/-- The processor that changes stacks, and the others. -/
theorem goto_cases (htu : t ≠ u) (h : (s.goto c t u).cpuOf w = some x) :
    w = u ∧ x = c ∨ w ≠ t ∧ w ≠ u ∧ s.cpuOf w = some x := by
  by_cases hu : w = u
  · subst hu
    rw [goto_cpuOf_self] at h
    exact .inl ⟨rfl, (Option.some.inj h).symm⟩
  · by_cases ht : w = t
    · subst ht
      rw [goto_cpuOf_left htu] at h
      cases h
    · rw [goto_cpuOf_of_ne ht hu] at h
      exact .inr ⟨ht, hu, h⟩

theorem goto_ctx_of_ne (hu : w ≠ u) : (s.goto c t u).ctx w = s.ctx w :=
  update_of_ne hu ..

@[simp] theorem goto_opened : opened w (s.goto c t u).hist = opened w s.hist := by
  cases u <;> rfl

variable {v : View n κ ℓ}

/-- Locks go over with the processor: both stacks have the same ones. -/
theorem Locks.goto (h : Locks s V) (ht : s.cpuOf t = some c) (hu : s.cpuOf u = none) (htu : t ≠ u)
    (hheld : (V u).held = (V t).held) : Locks (s.goto c t u) (update V t v) := by
  intro l y
  rw [show (s.goto c t u).lock l = s.lock l from rfl, h l y]
  constructor
  · rintro ⟨w, hw, hl⟩
    by_cases hwt : w = t
    · subst hwt
      obtain rfl : c = y := Option.some.inj (ht.symm.trans hw)
      refine ⟨u, goto_cpuOf_self, ?_⟩
      rwa [update_of_ne htu.symm, hheld]
    · have hwu : w ≠ u := by
        rintro rfl
        rw [hu] at hw
        cases hw
      exact ⟨w, by rwa [goto_cpuOf_of_ne hwt hwu], by rwa [update_of_ne hwt]⟩
  · rintro ⟨w, hw, hl⟩
    rcases goto_cases htu hw with ⟨rfl, rfl⟩ | ⟨hwt, -, hw⟩
    · rw [update_of_ne htu.symm, hheld] at hl
      exact ⟨t, ht, hl⟩
    · rw [update_of_ne hwt] at hl
      exact ⟨w, hw, hl⟩

/-- Interrupts go over with the processor: on both stacks one `push_off` is open. -/
theorem Irqs.goto (h : Irqs s V) (ht : s.cpuOf t = some c) (htu : t ≠ u) (hd : (V t).depth = 1)
    (hud : (V u).depth = 1) (hint : (V u).place = .parked ∨ (∃ q, (V u).place = .away q) ∨
      (s.cpu c).intena = (V u).ie)
    (hv : v.place = .out ∨ (V t).place ≠ .out ∧ v.depth = (V t).depth ∧ v.ie = (V t).ie)
    (hcalm : ∀ y, t = .sched y → v.ie = false) : Irqs (s.goto c t u) (update V t v) where
  noff {w y} hw := by
    rcases goto_cases htu hw with ⟨rfl, rfl⟩ | ⟨hwt, -, hw⟩
    · rw [update_of_ne htu.symm, hud, ← hd]
      exact h.noff ht
    · rw [update_of_ne hwt]
      exact h.noff hw
  sie {w y} hw := by
    rcases goto_cases htu hw with ⟨rfl, rfl⟩ | ⟨hwt, -, hw⟩
    · rw [update_of_ne htu.symm, hud]
      have := h.sie ht
      rwa [hd] at this
    · rw [update_of_ne hwt]
      exact h.sie hw
  intena {w y} hw hz hp ha := by
    rcases goto_cases htu hw with ⟨rfl, rfl⟩ | ⟨hwt, -, hw⟩
    · rw [update_of_ne htu.symm] at hp ha ⊢
      rcases hint with hint | ⟨q, hint⟩ | hint
      · exact absurd hint hp
      · exact absurd hint (ha q)
      · exact hint
    · rw [update_of_ne hwt] at hz hp ha ⊢
      exact h.intena hw hz hp ha
  nest {w} hp := by
    rw [goto_opened]
    by_cases hwt : w = t
    · subst hwt
      rw [update_self] at hp ⊢
      rcases hv with hv | ⟨hout, hvd, -⟩
      · exact absurd hv hp
      · rw [hvd, h.nest hout]
    · rw [update_of_ne hwt] at hp ⊢
      exact h.nest hp
  outer {w b} hp hb := by
    rw [goto_opened] at hb
    by_cases hwt : w = t
    · subst hwt
      rw [update_self] at hp ⊢
      rcases hv with hv | ⟨hout, -, hvi⟩
      · exact absurd hv hp
      · rw [hvi, h.outer hout hb]
    · rw [update_of_ne hwt] at hp ⊢
      exact h.outer hp hb
  calm {y} hz := by
    by_cases hwt : .sched y = t
    · rw [hwt, update_self]
      exact hcalm y hwt.symm
    · rw [update_of_ne hwt] at hz ⊢
      exact h.calm hz

/-- One stack is on each processor. -/
theorem Places.goto_one (h : Places s V) (ht : s.cpuOf t = some c) (htu : t ≠ u)
    {w w' : Thread n κ} (hw : (s.goto c t u).cpuOf w = some x)
    (hw' : (s.goto c t u).cpuOf w' = some x) : w = w' := by
  rcases goto_cases htu hw with ⟨rfl, rfl⟩ | ⟨hw₁, -, hw₂⟩
  · rcases goto_cases htu hw' with ⟨rfl, -⟩ | ⟨hw₁, -, hw₂⟩
    · rfl
    · exact absurd (h.one hw₂ ht) hw₁
  · rcases goto_cases htu hw' with ⟨rfl, rfl⟩ | ⟨-, -, hw₃⟩
    · exact absurd (h.one hw₂ ht) hw₁
    · exact h.one hw₂ hw₃

/-- Places of code that is on no processor. -/
def Place.Rest : Place n κ → Prop
  | .out => True
  | .parked => True
  | .away _ => True
  | _ => False

/-- Contexts when the processor goes over, from a context that has been saved. -/
theorem Ctxs.goto (h : Ctxs s V) (htu : t ≠ u) (hsaved : s.ctx t = .saved) (hv : v.place.Rest)
    (hu : (V u).place.Rest) (hentry : ∀ q, (s.goto c t u).entry q = true ↔
      (s.goto c t u).cpuOf (.proc q) ≠ none ∧ (update V t v (.proc q)).place = .out)
    (hborn : ∀ q, (update V t v (.proc q)).place = .out →
      (s.goto c t u).entry q = true ∨ (s.goto c t u).cpuOf (.proc q) = none ∧
        (s.goto c t u).ctx (.proc q) = .forkret → opened (.proc q) s.hist = [none]) :
    Ctxs (s.goto c t u) (update V t v) := by
  -- the other stacks that are in the middle of something are neither of the two
  have hmoved : ∀ {w P}, (update V t v w).place = P → ¬ P.Rest →
      w ≠ t ∧ w ≠ u ∧ (V w).place = P := by
    rintro w P rfl hP
    have hwt : w ≠ t := by
      rintro rfl
      rw [update_self] at hP
      exact hP hv
    rw [update_of_ne hwt] at hP ⊢
    refine ⟨hwt, ?_, rfl⟩
    rintro rfl
    exact hP hu
  refine ⟨fun {w _ _ _} hw => ?_, fun {w _ _ _} hw => ?_, fun {w _ _} hw => ?_,
    fun {w} hw hn => ?_, fun {w q} hw hn => ?_, hentry, fun {q} hq hb => ?_⟩
  · obtain ⟨hwt, hwu, hw⟩ := hmoved hw id
    rw [goto_cpuOf_of_ne hwt hwu, h.pinned hw]
  · obtain ⟨-, hwu, hw⟩ := hmoved hw id
    rw [goto_ctx_of_ne hwu, h.switching hw]
  · obtain ⟨-, hwu, hw⟩ := hmoved hw id
    rw [goto_ctx_of_ne hwu, h.loading hw]
  · have hwu := ne_of_goto_none hn
    rw [goto_ctx_of_ne hwu]
    by_cases hwt : w = t
    · rw [hwt, hsaved]
    · rw [update_of_ne hwt] at hw
      rw [goto_cpuOf_of_ne hwt hwu] at hn
      exact h.parked hw hn
  · have hwu := ne_of_goto_none hn
    rw [goto_ctx_of_ne hwu]
    by_cases hwt : w = t
    · rw [hwt, hsaved]
    · rw [update_of_ne hwt] at hw
      rw [goto_cpuOf_of_ne hwt hwu] at hn
      exact h.away hw hn
  · rw [goto_opened]
    exact hborn q hq hb

end Goto

/-! ## The side of the process -/

variable (h : Core s V)
include h

section

variable (ht : s.cpuOf (.proc p) = some c)
include ht

/-- A process that holds its lock changes its state before it calls `sched`. -/
theorem Core.leave (hp : (V (.proc p)).place = .run) (hl : .proc p ∈ (V (.proc p)).held)
    {w : Proc n (Chan n χ)} (hw : w.state = st) (hst : Left st) : Core (s.setProc p w)
      (update V (.proc p) { V (.proc p) with place := .leaving st }) := by
  have hon := State.on_of_eq ht
  have hplain : (V (.proc p)).place.Plain := by
    rw [hp]
    trivial
  obtain ⟨hlen, hnodup⟩ := (h.shape _).length_le hplain
  refine ⟨shape_update h.shape ⟨p, rfl, hlen, hnodup, hl, hst⟩,
    h.places.update_proc rfl fun _ => rfl, h.locks.congr (view_update View.held rfl) rfl rfl,
    h.irqs.move rfl rfl rfl (fun _ => ⟨rfl, rfl, rfl⟩) rfl hplain.ne_out hplain.ne_parked
      hplain.ne_away,
    h.ctxs.plain rfl rfl rfl rfl hon hplain.ne_out trivial,
    h.states.act rfl (fun _ _ => rfl) (fun q hq => ?_) hon ?_⟩
  · show (update s.proc p w q).state = _
    rw [update_of_ne hq]
  · show (update s.proc p w p).state = _
    rw [update_self, hw]
    rfl

/-- A process looks up its processor and saves its context, in two steps. -/
theorem Core.save (hd : (V (.proc p)).depth = 1) (hl : (V (.proc p)).held = [.proc p])
    (hst : Left st)
    (hp : (V (.proc p)).place = .leaving st ∨ ∃ d, (V (.proc p)).place = .switching c st d)
    {done : Option Bool} {x : Ctx} (hx : ∀ d, done = some d → x = if d then .saved else .saving) :
    Core (s.setCtx (.proc p) x)
      (update V (.proc p) { V (.proc p) with place := .switching c st done }) := by
  have hon := State.on_of_eq ht
  have hself : (s.setCtx (.proc p) x).ctx (.proc p) = x := update_self ..
  have hout : (V (.proc p)).place ≠ .out := by
    rcases hp with hp | ⟨d, hp⟩ <;> rw [hp] <;> rintro ⟨⟩
  have hstate : (V (.proc p)).place.state = st := by
    rcases hp with hp | ⟨d, hp⟩ <;> rw [hp] <;> rfl
  refine ⟨shape_update h.shape ⟨p, rfl, hd, hl, hst⟩,
    h.places.update_proc rfl fun _ => rfl, h.locks.congr (view_update View.held rfl) rfl rfl,
    h.irqs.move rfl rfl rfl (fun _ => ⟨rfl, rfl, rfl⟩) rfl hout ?_ ?_,
    h.ctxs.act rfl (fun u hu => update_of_ne hu ..) rfl ?_ ?_ (by rintro _ _ ⟨⟩) hon
      (h.ctxs.entry_update hout (by rintro ⟨⟩)) (by rintro ⟨⟩),
    h.states.act rfl (fun u hu => update_of_ne hu ..) (fun _ _ => rfl) hon
      ((h.states.on hon).trans hstate)⟩
  · rcases hp with hp | ⟨d, hp⟩ <;> rw [hp] <;> rintro ⟨⟩
  · rcases hp with hp | ⟨d, hp⟩ <;> rw [hp] <;> rintro _ ⟨⟩
  · rintro _ _ _ ⟨⟩
    exact ht
  · rintro _ _ d heq
    obtain ⟨-, -, hdone⟩ := Place.switching.inj heq
    rw [hself, hx d hdone]

/-- Where the scheduler of a processor is while the processor runs a process. -/
theorem Core.sched_away :
    (V (.sched c)).place = .away p ∧ s.cpuOf (.sched c) = none ∧ s.ctx (.sched c) = .saved := by
  have haway := h.places.guest ht
  have hoff : s.cpuOf (.sched c) = none := by
    by_contra hon
    obtain ⟨x, hx⟩ := Option.ne_none_iff_exists'.mp hon
    obtain rfl := h.places.home hx
    cases h.places.one hx ht
  exact ⟨haway, hoff, h.ctxs.away haway hoff⟩

/-- The place of a process that has switched away. -/
def parking (st : ProcState) : Place n κ := if st = .zombie then .out else .parked

variable {v : View n κ ℓ}

theorem Places.park : Places (s.goto c (.proc p) (.sched c)) (update V (.proc p) v) := by
  obtain ⟨haway, hoff, -⟩ := h.sched_away ht
  have htu : (.proc p : Thread n κ) ≠ .sched c := by rintro ⟨⟩
  have hother : ∀ {x}, x ≠ c →
      (s.goto c (.proc p) (.sched c)).cpuOf (.sched x) = s.cpuOf (.sched x) := fun hx =>
    goto_cpuOf_of_ne (by rintro ⟨⟩) (sched_ne hx)
  refine ⟨h.places.goto_one ht htu, fun {x y} hx => ?_, fun x q => ?_, fun {x y q} hx hy => ?_,
    fun {q x} hq => ?_, fun {x q} hx hn => ?_, fun {x} hx => ?_⟩
  · rcases goto_cases htu hx with ⟨heq, rfl⟩ | ⟨-, -, hx⟩
    · exact (Thread.sched.inj heq).symm
    · exact h.places.home hx
  · rw [update_proc_sched]
    exact h.places.proc x q
  · rw [update_proc_sched] at hx hy
    exact h.places.unique hx hy
  · rw [update_proc_sched]
    rcases goto_cases htu hq with ⟨⟨⟩, -⟩ | ⟨-, -, hq⟩
    exact h.places.guest hq
  · rw [update_proc_sched] at hx
    have hxc : x ≠ c := ne_of_apply_ne .sched (ne_of_goto_none hn)
    rw [hother hxc] at hn
    have hq := h.places.away hx hn
    have hqp : q ≠ p := by
      rintro rfl
      exact hxc (Option.some.inj (hq.symm.trans ht))
    rw [goto_cpuOf_of_ne (proc_ne hqp) (by rintro ⟨⟩), hq]
  · have hxc : x ≠ c := by
      rintro rfl
      exact hx p haway
    rw [hother hxc]
    exact h.places.here hx

section

variable (hp : (V (.proc p)).place = .switching c st (some true))
include hp

theorem Ctxs.park
    (hv : v.place = parking st) : Ctxs (s.goto c (.proc p) (.sched c)) (update V (.proc p) v) := by
  obtain ⟨haway, hoff, -⟩ := h.sched_away ht
  have htu : (.proc p : Thread n κ) ≠ .sched c := by rintro ⟨⟩
  have hsaved : s.ctx (.proc p) = .saved := h.ctxs.switching hp
  have hentry : s.entry p ≠ true := by
    intro he
    have := ((h.ctxs.entry p).mp he).2
    rw [hp] at this
    cases this
  refine h.ctxs.goto htu hsaved ?_ ?_ (fun q => ?_) fun q hq hb => ?_
  · rw [hv, parking]
    split <;> trivial
  · rw [haway]
    trivial
  · show s.entry q = true ↔ _
    by_cases hqp : q = p
    · subst hqp
      rw [goto_cpuOf_left htu]
      exact iff_of_false hentry fun hq => hq.1 rfl
    · rw [goto_cpuOf_of_ne (proc_ne hqp) (by rintro ⟨⟩), update_proc_of_ne _ _ hqp, h.ctxs.entry]
  · have hb' : s.entry q = true ∨ (s.goto c (.proc p) (.sched c)).cpuOf (.proc q) = none ∧
        (s.goto c (.proc p) (.sched c)).ctx (.proc q) = .forkret := hb
    rw [goto_ctx_of_ne (by rintro ⟨⟩)] at hb'
    by_cases hqp : q = p
    · subst hqp
      rcases hb' with he | ⟨-, hc⟩
      · exact absurd he hentry
      · rw [hsaved] at hc
        cases hc
    · rw [update_proc_of_ne _ _ hqp] at hq
      rw [goto_cpuOf_of_ne (proc_ne hqp) (by rintro ⟨⟩)] at hb'
      exact h.ctxs.born hq hb'

theorem States.park (hv : v.place = parking st) :
    States (s.goto c (.proc p) (.sched c)) (update V (.proc p) v) := by
  obtain ⟨haway, -, -⟩ := h.sched_away ht
  obtain ⟨-, -, hst⟩ := (h.shape (.proc p)).switching hp
  have htu : (.proc p : Thread n κ) ≠ .sched c := by rintro ⟨⟩
  have hctx : ∀ q, (s.goto c (.proc p) (.sched c)).ctx (.proc q) = s.ctx (.proc q) := fun q =>
    goto_ctx_of_ne (by rintro ⟨⟩)
  have hsame : ∀ {q}, q ≠ p →
      (s.goto c (.proc p) (.sched c)).cpuOf (.proc q) = s.cpuOf (.proc q) := fun hq =>
    goto_cpuOf_of_ne (proc_ne hq) (by rintro ⟨⟩)
  have hnext : ∀ x, (V (.sched x)).place.next ≠ some p := by
    intro x hx
    obtain rfl := h.places.unique (Place.pick_of_next hx) (by rw [haway]; rfl)
    rw [haway] at hx
    cases hx
  have hstate : (s.proc p).state = st := by
    rw [h.states.on (State.on_of_eq ht), hp]
    rfl
  refine ⟨fun {q} hq => ?_, fun {x q} hx => ?_, fun {q} hq hn => ?_⟩
  · have hqp : q ≠ p := by
      rintro rfl
      exact hq (goto_cpuOf_left htu)
    rw [hsame hqp] at hq
    rw [update_proc_of_ne _ _ hqp]
    exact h.states.on hq
  · rw [update_proc_sched] at hx
    have hqp : q ≠ p := by
      rintro rfl
      exact hnext x hx
    unfold Loadable
    rw [hsame hqp, update_proc_of_ne _ _ hqp, hctx]
    exact h.states.loading hx
  · unfold Resting Loadable
    rw [hctx]
    by_cases hqp : q = p
    · subst hqp
      rw [update_self, hv]
      show (s.proc q).state = .runnable ∧ _ ∨ (s.proc q).state = .sleeping ∧ _ ∨ _
      rw [show ((s.goto c (.proc q) (.sched c)).proc q).state = st from hstate, hstate]
      rcases hst with rfl | rfl | rfl
      · exact .inl ⟨rfl, .inl rfl⟩
      · exact .inr (.inl ⟨rfl, rfl⟩)
      · exact .inr (.inr ⟨.inr (.inr rfl), rfl⟩)
    · rw [hsame hqp] at hq
      rw [update_proc_of_ne _ _ hqp]
      exact h.states.off hq hn

/-- **A process goes to the scheduler of its processor**, which takes over the lock. -/
theorem Core.park (hvp : v.place = parking st) (hvd : v.depth = 1) (hvh : v.held = [.proc p])
    (hvi : v.ie = if st = .zombie then false else (V (.proc p)).ie) :
    Core (s.goto c (.proc p) (.sched c)) (update V (.proc p) v) := by
  obtain ⟨haway, hoff, -⟩ := h.sched_away ht
  obtain ⟨hd, hl, hst⟩ := (h.shape (.proc p)).switching hp
  obtain ⟨hsd, hsl, -⟩ := (h.shape (.sched c)).away haway
  have htu : (.proc p : Thread n κ) ≠ .sched c := by rintro ⟨⟩
  refine ⟨shape_update h.shape ?_, .park h ht, h.locks.goto ht hoff htu (by rw [hsl, hl]),
    h.irqs.goto ht htu hd hsd (.inr (.inl ⟨p, haway⟩)) ?_ (by rintro _ ⟨⟩), .park h ht hp hvp,
    .park h ht hp hvp⟩
  · unfold Shape
    by_cases hz : st = .zombie
    · rw [parking, if_pos hz] at hvp
      rw [if_pos hz] at hvi
      simp only [hvp]
      exact ⟨p, rfl, hvd, hvh, hvi⟩
    · rw [parking, if_neg hz] at hvp
      simp only [hvp]
      exact ⟨p, rfl, hvd, hvh⟩
  · by_cases hz : st = .zombie
    · rw [parking, if_pos hz] at hvp
      exact .inl hvp
    · rw [if_neg hz] at hvi
      exact .inr ⟨by rw [hp]; rintro ⟨⟩, by rw [hvd, hd], hvi⟩

end

/-- A process that has been switched to finds its `intena` again. -/
theorem Core.resume (hp : (V (.proc p)).place = .parked) :
    Core (s.setCpu c { s.cpu c with intena := (V (.proc p)).ie })
      (update V (.proc p) { V (.proc p) with place := .run }) := by
  obtain ⟨hd, hl⟩ := (h.shape (.proc p)).parked hp
  have hon := State.on_of_eq ht
  have hself : (s.setCpu c { s.cpu c with intena := (V (.proc p)).ie }).cpu c =
      { s.cpu c with intena := (V (.proc p)).ie } := update_self ..
  have hout : (V (.proc p)).place ≠ .out := by
    rw [hp]
    rintro ⟨⟩
  refine ⟨shape_update h.shape (.run_of_held hd hl), h.places.update_proc rfl (setCpu_proc rfl),
    h.locks.congr (view_update View.held rfl) rfl rfl,
    h.irqs.act h.places ht rfl (fun x hx => update_of_ne hx ..) (fun _ _ => rfl) ?_ ?_
      (fun _ _ _ => ?_) (fun _ => h.irqs.nest hout) (fun w _ hw => h.irqs.outer hout hw)
      (by rintro _ ⟨⟩),
    h.ctxs.plain rfl rfl rfl rfl hon hout trivial,
    h.states.act rfl (fun _ _ => rfl) (fun _ _ => rfl) hon ?_⟩
  · rw [hself]
    exact h.irqs.noff ht
  · rw [hself]
    exact h.irqs.sie ht
  · rw [hself]
  · refine (h.states.on hon).trans ?_
    rw [hp]
    rfl

end

/-- A new process begins to run. -/
theorem Core.enterForkret (he : s.entry p = true) : Core { s with entry := update s.entry p false }
      (update V (.proc p) { V (.proc p) with place := .run }) := by
  obtain ⟨hon, hp⟩ := (h.ctxs.entry p).mp he
  obtain ⟨c, ht⟩ := Option.ne_none_iff_exists'.mp hon
  obtain ⟨hd, hl, -⟩ := (h.shape (.proc p)).out hp
  have hopened : opened (.proc p) s.hist = [none] := h.ctxs.born hp (.inl he)
  refine ⟨shape_update h.shape (.run_of_held hd hl), h.places.update_proc rfl fun _ => rfl,
    h.locks.congr (view_update View.held rfl) rfl rfl,
    h.irqs.act h.places ht rfl (fun _ _ => rfl) (fun _ _ => rfl) (h.irqs.noff ht) (h.irqs.sie ht)
      (fun hz _ _ => ?_) (fun _ => ?_) (fun w _ hw => ?_) (by rintro _ ⟨⟩),
    h.ctxs.act rfl (fun _ _ => rfl) rfl (by rintro _ _ _ ⟨⟩) (by rintro _ _ _ ⟨⟩)
      (by rintro _ _ ⟨⟩) hon (fun q => ?_)
      (by rintro ⟨⟩),
    h.states.act rfl (fun _ _ => rfl) (fun _ _ => rfl) hon ?_⟩
  · exact h.irqs.intena ht hz (by rw [hp]; rintro ⟨⟩) (by rw [hp]; rintro _ ⟨⟩)
  · rw [hopened, hd]
    rfl
  · have hw' : (opened (.proc p) s.hist).getLast? = some (some w) := hw
    rw [hopened] at hw'
    cases hw'
  · show update s.entry p false q = true ↔ _
    by_cases hqp : q = p
    · subst hqp
      rw [update_self, update_self]
      exact iff_of_false Bool.false_ne_true fun hq => by cases hq.2
    · rw [update_of_ne hqp, update_proc_of_ne _ _ hqp, h.ctxs.entry]
  · refine (h.states.on hon).trans ?_
    rw [hp]
    rfl

/-! ## The side of the scheduler -/

variable (ht : s.cpuOf (.sched c) = some c)
include ht

/-- **The scheduler picks a process** that is runnable, with its lock held. -/
theorem Core.pick (hrun : (V (.sched c)).place = .run) (hd : (V (.sched c)).depth = 1)
    (hl : (V (.sched c)).held = [.proc p]) (hst : (s.proc p).state = .runnable) :
    Core ((s.setProc p { s.proc p with state := .running }).setCpu c
        { s.cpu c with proc := some p })
      (update V (.sched c) { V (.sched c) with place := .loading p none }) := by
  have hmem : .proc p ∈ (V (.sched c)).held := by simp [hl]
  obtain ⟨hoff, hpick⟩ := h.settled ht hmem hrun (by rw [hst]; rintro ⟨⟩)
  have hplain : (V (.sched c)).place.Plain := by
    rw [hrun]
    trivial
  have hon := State.on_of_eq ht
  have hload : Loadable s V p := by
    rcases h.states.off hoff fun x hx => hpick x (Place.pick_of_next hx) with
      ⟨-, hload⟩ | ⟨hs, -⟩ | ⟨hs | hs | hs, -⟩
    · exact hload
    all_goals
      rw [hst] at hs
      cases hs
  have hcpu : ∀ {x}, x ≠ c → ((s.setProc p { s.proc p with state := .running }).setCpu c
      { s.cpu c with proc := some p }).cpu x = s.cpu x := fun hx => update_of_ne hx ..
  have hcself : ((s.setProc p { s.proc p with state := .running }).setCpu c
      { s.cpu c with proc := some p }).cpu c = { s.cpu c with proc := some p } :=
    update_self ..
  refine ⟨shape_update h.shape ⟨c, rfl, hd, hl, h.irqs.calm (by rw [hd]; exact one_ne_zero)⟩,
    h.places.update_sched ht rfl (by rw [hcself]; rfl) (fun x hx => by rw [hcpu hx]) ?_,
    h.locks.congr (view_update View.held rfl) rfl rfl,
    h.irqs.move rfl rfl rfl (fun x => ?_) rfl hplain.ne_out hplain.ne_parked hplain.ne_away,
    h.ctxs.act rfl (fun _ _ => rfl) rfl (by rintro _ _ _ ⟨⟩) (by rintro _ _ _ ⟨⟩)
      (by rintro _ _ ⟨⟩) hon
      (h.ctxs.entry_update hplain.ne_out (by rintro ⟨⟩)) (by rintro ⟨⟩),
    ⟨fun {q} hq => ?_, fun {x q} hx => ?_, fun {q} hq hn => ?_⟩⟩
  · rintro x q ⟨⟩
    exact hpick x
  · by_cases hx : x = c
    · subst hx
      rw [hcself]
      exact ⟨rfl, rfl, rfl⟩
    · rw [hcpu hx]
      exact ⟨rfl, rfl, rfl⟩
  · have hqp : q ≠ p := by
      rintro rfl
      exact hq hoff
    rw [update_sched_proc]
    show (update s.proc p _ q).state = _
    rw [update_of_ne hqp]
    exact h.states.on hq
  · unfold Loadable
    rw [update_sched_proc]
    by_cases hxc : x = c
    · subst hxc
      rw [update_self] at hx
      cases hx
      refine ⟨hoff, ?_, hload⟩
      show (update s.proc p _ p).state = _
      rw [update_self]
    · rw [update_sched_of_ne _ _ hxc] at hx
      have hqp : q ≠ p := by
        rintro rfl
        exact hpick x (Place.pick_of_next hx)
      obtain ⟨h₁, h₂, h₃⟩ := h.states.loading hx
      refine ⟨h₁, ?_, h₃⟩
      show (update s.proc p _ q).state = _
      rw [update_of_ne hqp, h₂]
  · have hqp : q ≠ p := by
      rintro rfl
      exact hn c (by rw [update_self]; rfl)
    have hproc' : ((s.setProc p { s.proc p with state := .running }).setCpu c
        { s.cpu c with proc := some p }).proc q = s.proc q := update_of_ne hqp ..
    unfold Resting Loadable
    rw [update_sched_proc, hproc']
    refine h.states.off hq fun x hx => ?_
    by_cases hxc : x = c
    · subst hxc
      rw [hrun] at hx
      cases hx
    · exact hn x (by rwa [update_sched_of_ne _ _ hxc])

/-- A scheduler saves its context, in two steps. -/
theorem Core.store {before : Option Bool} (hp : (V (.sched c)).place = .loading p before)
    (done : Bool) : Core (s.setCtx (.sched c) (if done then .saved else .saving))
      (update V (.sched c) { V (.sched c) with place := .loading p (some done) }) := by
  obtain ⟨hd, hl, hi⟩ := (h.shape (.sched c)).loading hp
  have hself : (s.setCtx (.sched c) (if done then .saved else .saving)).ctx (.sched c) =
      if done then .saved else .saving := update_self ..
  have hctx : ∀ {u}, u ≠ .sched c →
      (s.setCtx (.sched c) (if done then .saved else .saving)).ctx u = s.ctx u := fun hu =>
    update_of_ne hu ..
  have hout : (V (.sched c)).place ≠ .out := by rw [hp]; rintro ⟨⟩
  refine ⟨shape_update h.shape ⟨c, rfl, hd, hl, hi⟩,
    h.places.congr_pick
      (fun x => view_update (fun v : View n κ ℓ => v.place.pick) (by rw [hp]; rfl) _)
      (fun x q => by
        rw [view_update (fun v : View n κ ℓ => v.place = .away q) (by rw [hp]; simp)])
      rfl fun _ => rfl,
    h.locks.congr (view_update View.held rfl) rfl rfl,
    h.irqs.move rfl rfl rfl (fun _ => ⟨rfl, rfl, rfl⟩) rfl hout (by rw [hp]; rintro ⟨⟩)
      (by rw [hp]; rintro _ ⟨⟩),
    h.ctxs.act rfl (fun u hu => hctx hu) rfl (by rintro _ _ _ ⟨⟩) (by rintro _ _ _ ⟨⟩) ?_
      (State.on_of_eq ht) (h.ctxs.entry_update hout (by rintro ⟨⟩)) (by rintro ⟨⟩),
    h.states.congr_next (fun q => by rw [update_sched_proc])
      (fun x => view_update (fun v : View n κ ℓ => v.place.next) (by rw [hp]; rfl) _) rfl
      (fun q => hctx (by rintro ⟨⟩)) fun _ => rfl⟩
  rintro _ _ ⟨⟩
  exact hself

omit ht in
/-- What the scheduler switches to has been saved completely, or is new. -/
theorem Core.ready (hp : (V (.sched c)).place.next = some p) :
    s.ctx (.proc p) = .saved ∧ (V (.proc p)).place = .parked ∨
      s.ctx (.proc p) = .forkret ∧ (V (.proc p)).place = .out := by
  obtain ⟨hoff, -, hload | ⟨hout, hctx⟩⟩ := h.states.loading hp
  · exact .inl ⟨h.ctxs.parked hload hoff, hload⟩
  · exact .inr ⟨hctx, hout⟩

/-- The lock of what the scheduler switches to is held on its processor. -/
theorem Core.lock_of_next (hp : (V (.sched c)).place.next = some p) : s.lock (.proc p) = some c :=
  (h.locks _ _).mpr ⟨.sched c, ht, (h.shape _).held_pick (Place.pick_of_next hp)⟩

section

variable (hp : (V (.sched c)).place = .loading p (some true)) {v : View n κ ℓ}
  (hv : v.place = .away p)
include hp hv

theorem Places.dispatch : Places (s.goto c (.sched c) (.proc p)) (update V (.sched c) v) := by
  have htu : (.sched c : Thread n κ) ≠ .proc p := by rintro ⟨⟩
  obtain ⟨hoff, -, -⟩ := h.states.loading (by rw [hp]; rfl)
  have hself : (update V (.sched c) v (.sched c)).place = .away p := by rw [update_self, hv]
  have hpick : ∀ x, (update V (.sched c) v (.sched x)).place.pick = (V (.sched x)).place.pick :=
    fun x => view_update (fun v : View n κ ℓ => v.place.pick) (by rw [hp, hv]; rfl) _
  refine ⟨h.places.goto_one ht htu, fun {x y} hx => ?_, fun x q => ?_, fun {x y q} hx hy => ?_,
    fun {q x} hq => ?_, fun {x q} hx hn => ?_, fun {x} hx => ?_⟩
  · rcases goto_cases htu hx with ⟨⟨⟩, -⟩ | ⟨-, -, hx⟩
    exact h.places.home hx
  · rw [hpick]
    exact h.places.proc x q
  · rw [hpick] at hx hy
    exact h.places.unique hx hy
  · rcases goto_cases htu hq with ⟨heq, rfl⟩ | ⟨-, -, hq'⟩
    · rw [hself, Thread.proc.inj heq]
    · have hxc : x ≠ c := by
        rintro rfl
        cases h.places.one hq' ht
      rw [update_sched_of_ne _ _ hxc]
      exact h.places.guest hq'
  · by_cases hxc : x = c
    · subst hxc
      rw [hself] at hx
      cases hx
      exact goto_cpuOf_self
    · rw [update_sched_of_ne _ _ hxc] at hx
      rw [goto_cpuOf_of_ne (sched_ne hxc) (by rintro ⟨⟩)] at hn
      have hq := h.places.away hx hn
      have hqp : q ≠ p := by
        rintro rfl
        rw [hoff] at hq
        cases hq
      rw [goto_cpuOf_of_ne (by rintro ⟨⟩) (proc_ne hqp), hq]
  · have hxc : x ≠ c := by
      rintro rfl
      exact hx p hself
    rw [update_sched_of_ne _ _ hxc] at hx
    rw [goto_cpuOf_of_ne (sched_ne hxc) (by rintro ⟨⟩)]
    exact h.places.here hx

omit ht in
theorem Ctxs.dispatch : Ctxs (s.goto c (.sched c) (.proc p)) (update V (.sched c) v) := by
  have htu : (.sched c : Thread n κ) ≠ .proc p := by rintro ⟨⟩
  have hnext : (V (.sched c)).place.next = some p := by rw [hp]; rfl
  have hready := h.ready hnext
  obtain ⟨hoff, -, -⟩ := h.states.loading hnext
  refine h.ctxs.goto htu (h.ctxs.loading hp) (by rw [hv]; trivial) ?_ (fun q => ?_)
    fun q hq hb => ?_
  · rcases hready with ⟨-, hpl⟩ | ⟨-, hpl⟩ <;> rw [hpl] <;> trivial
  · show (if (.proc p : Thread n κ) = .proc q then decide (s.ctx (.proc p) = .forkret)
      else s.entry q) = true ↔ _
    rw [update_sched_proc]
    by_cases hqp : q = p
    · subst hqp
      rw [if_pos rfl, goto_cpuOf_self]
      rcases hready with ⟨hc, hpl⟩ | ⟨hc, hpl⟩
      · rw [hc, hpl]
        exact iff_of_false (by decide) fun hq => by cases hq.2
      · rw [hc, hpl]
        exact iff_of_true rfl ⟨by rintro ⟨⟩, rfl⟩
    · rw [if_neg (proc_ne hqp).symm, goto_cpuOf_of_ne (by rintro ⟨⟩) (proc_ne hqp), h.ctxs.entry]
  · rw [update_sched_proc] at hq
    by_cases hqp : q = p
    · subst hqp
      rcases hready with ⟨-, hpl⟩ | ⟨hc, -⟩
      · rw [hpl] at hq
        cases hq
      · exact h.ctxs.born hq (.inr ⟨hoff, hc⟩)
    · have hb' : (if (.proc p : Thread n κ) = .proc q then decide (s.ctx (.proc p) = .forkret)
          else s.entry q) = true ∨ (s.goto c (.sched c) (.proc p)).cpuOf (.proc q) = none ∧
          (s.goto c (.sched c) (.proc p)).ctx (.proc q) = .forkret := hb
      rw [if_neg (proc_ne hqp).symm, goto_cpuOf_of_ne (by rintro ⟨⟩) (proc_ne hqp),
        goto_ctx_of_ne (proc_ne hqp)] at hb'
      exact h.ctxs.born hq hb'

omit ht in
theorem States.dispatch : States (s.goto c (.sched c) (.proc p)) (update V (.sched c) v) := by
  have hnext : (V (.sched c)).place.next = some p := by rw [hp]; rfl
  obtain ⟨hoff, hrun, hload⟩ := h.states.loading hnext
  have hsame : ∀ {q}, q ≠ p →
      (s.goto c (.sched c) (.proc p)).cpuOf (.proc q) = s.cpuOf (.proc q) := fun hq =>
    goto_cpuOf_of_ne (by rintro ⟨⟩) (proc_ne hq)
  refine ⟨fun {q} hq => ?_, fun {x q} hx => ?_, fun {q} hq hn => ?_⟩
  · rw [update_sched_proc]
    by_cases hqp : q = p
    · subst hqp
      refine Eq.trans hrun ?_
      rcases hload with hpl | ⟨hpl, -⟩ <;> rw [hpl] <;> rfl
    · rw [hsame hqp] at hq
      exact h.states.on hq
  · have hxc : x ≠ c := by
      rintro rfl
      rw [update_self, hv] at hx
      cases hx
    rw [update_sched_of_ne _ _ hxc] at hx
    have hqp : q ≠ p := by
      rintro rfl
      exact hxc (h.places.unique (Place.pick_of_next hx) (Place.pick_of_next hnext))
    unfold Loadable
    rw [update_sched_proc, hsame hqp, goto_ctx_of_ne (proc_ne hqp)]
    exact h.states.loading hx
  · have hqp : q ≠ p := ne_of_apply_ne .proc (ne_of_goto_none hq)
    rw [hsame hqp] at hq
    unfold Resting Loadable
    rw [update_sched_proc, goto_ctx_of_ne (proc_ne hqp)]
    refine h.states.off hq fun x hx => ?_
    by_cases hxc : x = c
    · subst hxc
      rw [hnext] at hx
      exact hqp (Option.some.inj hx).symm
    · exact hn x (by rwa [update_sched_of_ne _ _ hxc])

omit hv in
/-- **A scheduler goes to the process it has picked**, which takes over the lock. -/
theorem Core.dispatch : Core (s.goto c (.sched c) (.proc p))
      (update V (.sched c) { V (.sched c) with place := .away p }) := by
  have htu : (.sched c : Thread n κ) ≠ .proc p := by rintro ⟨⟩
  have hnext : (V (.sched c)).place.next = some p := by rw [hp]; rfl
  obtain ⟨hoff, -, hload⟩ := h.states.loading hnext
  obtain ⟨hd, hl, hi⟩ := (h.shape (.sched c)).loading hp
  have hpd : (V (.proc p)).depth = 1 ∧ (V (.proc p)).held = [.proc p] := by
    rcases hload with hpl | ⟨hpl, -⟩
    · exact (h.shape _).parked hpl
    · obtain ⟨h₁, h₂, -⟩ := (h.shape (.proc p)).out hpl
      exact ⟨h₁, h₂⟩
  refine ⟨shape_update h.shape ⟨c, rfl, hd, hl, hi⟩, .dispatch h ht hp rfl,
    h.locks.goto ht hoff htu (by rw [hpd.2, hl]),
    h.irqs.goto ht htu hd hpd.1 ?_ (.inr ⟨by rw [hp]; rintro ⟨⟩, rfl, rfl⟩) (fun _ _ => hi),
    .dispatch h hp rfl, .dispatch h hp rfl⟩
  rcases hload with hpl | ⟨hpl, -⟩
  · exact .inl hpl
  · -- the scheduler had interrupts off, and so has the new process
    refine .inr (.inr ?_)
    rw [((h.shape (.proc p)).out hpl).2.2, ← hi]
    exact h.irqs.intena ht (by rw [hd]; exact one_ne_zero) (by rw [hp]; rintro ⟨⟩)
      (by rw [hp]; rintro _ ⟨⟩)

end

/-- **The scheduler has been switched back to**, with the lock of its process. -/
theorem Core.unpick (hp : (V (.sched c)).place = .away p) :
    Core (s.setCpu c { s.cpu c with intena := false, proc := none })
      (update V (.sched c) { V (.sched c) with place := .run }) := by
  obtain ⟨hd, hl, hi⟩ := (h.shape (.sched c)).away hp
  have hout : (V (.sched c)).place ≠ .out := by rw [hp]; rintro ⟨⟩
  have hself : (s.setCpu c { s.cpu c with intena := false, proc := none }).cpu c =
      { s.cpu c with intena := false, proc := none } := update_self ..
  have hcpu : ∀ x, x ≠ c →
      (s.setCpu c { s.cpu c with intena := false, proc := none }).cpu x = s.cpu x := fun x hx =>
    update_of_ne hx ..
  refine ⟨shape_update h.shape (.run_of_held hd hl),
    h.places.update_sched ht rfl (by rw [hself]; rfl) (fun x hx => by rw [hcpu x hx])
      (by rintro _ _ ⟨⟩),
    h.locks.congr (view_update View.held rfl) rfl rfl,
    h.irqs.act h.places ht rfl hcpu (fun _ _ => rfl) ?_ ?_ (fun _ _ _ => ?_)
      (fun _ => h.irqs.nest hout) (fun w _ hw => h.irqs.outer hout hw) (fun _ _ _ => hi),
    h.ctxs.plain rfl rfl rfl rfl (State.on_of_eq ht) hout trivial,
    h.states.congr_next (fun q => by rw [update_sched_proc])
      (fun x => view_update (fun v : View n κ ℓ => v.place.next) (by rw [hp]; rfl) _) rfl
      (fun _ => rfl) fun _ => rfl⟩
  · rw [hself]
    exact h.irqs.noff ht
  · rw [hself]
    exact h.irqs.sie ht
  · rw [hself]
    exact hi.symm

end Sched

end TrinityXv6
