import TrinityXv6.Sched.Locking

/-!
# Switching, sleeping and waking up

The code that moves processes between processors: what `sched` does to the view of the process that
calls it, what a turn of `scheduler` does to that of the scheduler, and any properly bracketed
sequence of operations on locks.

`sched` has two ends. A process that has ended does not come back from it: what comes back on its
stack is the start of `forkret`, for the next process in the slot.
-/

namespace TrinityXv6

namespace Sched

open Threads
open Option
open List
open Process (ProcState Proc)

variable {n d d' : ℕ} {κ ℓ χ α : Type} {s : State n κ ℓ χ} {a : Agent n κ} {v w : View n κ ℓ}
  {c : κ} {p : Fin n} {st : ProcState} {H H' : List ℓ} {o : Op ℓ χ}

/-! ## Views -/

theorem View.run_eq (h : v.place = .run) : { v with place := .run } = v := by
  cases v
  cases h
  rfl

/-- Code that can be interrupted by sleeping: no `push_off` is open. -/
structure View.Free (v : View n κ ℓ) : Prop where
  run : v.place = .run
  depth : v.depth = 0
  held : v.held = []
  claim : v.claim = none

theorem View.Free.length_le (h : v.Free) : v.held.length ≤ v.depth := by
  rw [h.held, h.depth]
  exact le_rfl

theorem View.Free.not_mem (h : v.Free) (l : Lock n ℓ) : l ∉ v.held := by simp [h.held]

theorem View.Free.plain (h : v.Free) : v.place.Plain := by
  rw [h.run]
  trivial

/-- Code that holds no lock of a process, on a stack that `push_off` is safe on. -/
structure View.Clear (a : Agent n κ) (v : View n κ ℓ) : Prop where
  run : v.place = .run
  length_le : v.held.length ≤ v.depth
  not_mem : ∀ q, .proc q ∉ v.held
  claim : v.claim = none
  calm : Calm a v

theorem View.Free.clear (h : v.Free) (hcalm : Calm a v) : v.Clear a :=
  ⟨h.run, h.length_le, fun _ => h.not_mem _, h.claim, hcalm⟩

/-- The view after operations that have left `d` `push_off`s open and the locks `H` held. -/
def View.inside (v : View n κ ℓ) (d : ℕ) (H : List ℓ) : View n κ ℓ :=
  { v with depth := v.depth + d, held := H.map .other ++ v.held }

/-- Code from which other locks may be taken. -/
structure View.Base (a : Agent n κ) (v : View n κ ℓ) : Prop where
  run : v.place = .run
  length_le : v.held.length ≤ v.depth
  not_mem : ∀ l, .other l ∉ v.held
  calm : Calm a v

theorem View.Free.base (h : v.Free) (hcalm : Calm a v) : v.Base a :=
  ⟨h.run, h.length_le, fun _ => h.not_mem _, hcalm⟩

theorem View.inside_length_le (hv : v.held.length ≤ v.depth) (hH : H.length ≤ d) :
    (v.inside d H).held.length ≤ (v.inside d H).depth := by
  simp only [View.inside, length_append, length_map]
  omega

theorem View.mem_inside (hv : ∀ l, .other l ∉ v.held) {l : ℓ} :
    .other l ∈ (v.inside d H).held ↔ l ∈ H := by
  simp [View.inside, hv]

theorem View.Free.inside_clear (h : v.Free) (hH : H.length ≤ d) (hcalm : Calm a v) :
    (v.inside d H).Clear a :=
  ⟨h.run, inside_length_le h.length_le hH, fun q => by simp [View.inside, h.held], h.claim, hcalm⟩

/-- Operations that need something, and what they leave. -/
theorem Op.after_of_ite {P : Prop} [Decidable P] {d₁ : ℕ} {H₁ : List ℓ}
    (h : (if P then some (d₁, H₁) else none) = some (d', H')) : P ∧ d₁ = d' ∧ H₁ = H' := by
  simpa only [ite_none_right_eq_some, some.injEq, Prod.mk.injEq] using h

theorem View.drop_inside [DecidableEq ℓ] {l : ℓ} (hl : l ∈ H) (hd : d ≠ 0) :
    (v.inside d H).drop (.other l) = v.inside (d - 1) (H.erase l) := by
  have hinj : Function.Injective (Lock.other : ℓ → Lock n ℓ) := fun _ _ => Lock.other.inj
  have hmem : (.other l : Lock n ℓ) ∈ H.map .other := mem_map_of_mem hl
  simp only [View.drop, View.inside]
  rw [erase_append_left _ hmem, map_erase hinj]
  congr 1
  omega

/-- Operations leave at least as many `push_off`s open as locks held. -/
theorem Op.length_le_after [DecidableEq ℓ] (hH : H.length ≤ d)
    (ho : o.after (d, H) = some (d', H')) :
    H'.length ≤ d' := by
  cases o with
  | pushOff =>
    obtain ⟨rfl, rfl⟩ := Prod.mk.inj (some.inj ho)
    omega
  | popOff =>
    obtain ⟨hlt, rfl, rfl⟩ := Op.after_of_ite ho
    omega
  | acquire l =>
    simp only [Op.after, ite_none_left_eq_some, some.injEq, Prod.mk.injEq] at ho
    obtain ⟨-, rfl, rfl⟩ := ho
    exact Nat.succ_le_succ hH
  | release l =>
    obtain ⟨hl, rfl, rfl⟩ := Op.after_of_ite ho
    rw [length_erase_of_mem hl]
    omega
  | wakeup x =>
    obtain ⟨rfl, rfl⟩ := Prod.mk.inj (some.inj ho)
    exact hH
  | kkill pid =>
    obtain ⟨rfl, rfl⟩ := Prod.mk.inj (some.inj ho)
    exact hH
  | sleepPrepare x =>
    obtain ⟨rfl, rfl⟩ := Prod.mk.inj (some.inj ho)
    exact hH
  | sleep =>
    obtain ⟨-, rfl, rfl⟩ := Op.after_of_ite ho
    exact hH
  | yield =>
    obtain ⟨-, rfl, rfl⟩ := Op.after_of_ite ho
    exact hH

variable [DecidableEq κ]

/-! ## The side of the process -/

theorem Left.ne_running (h : Left st) : st ≠ .running := by
  rcases h with rfl | rfl | rfl <;> rintro ⟨⟩

theorem Left.ne_used (h : Left st) : st ≠ .used := by
  rcases h with rfl | rfl | rfl <;> rintro ⟨⟩

/-- A change of the context of a process whose slot nobody is working on. -/
theorem Keeps.setCtx {x : Ctx} (hp : (s.proc p).state ≠ .used) :
    Keeps s (s.setCtx (.proc p) x) := by
  refine ⟨rfl, id, fun q hq => ⟨hq, fun hctx => ?_⟩, fun _ _ => rfl⟩
  have hne : (.proc q : Thread n κ) ≠ .proc p := by
    rintro ⟨⟩
    exact hp hq
  exact (Function.update_of_ne hne ..).trans hctx

section

variable (ht : a.thread = .proc p)
include ht

/-- A process changes its own state, with its lock. -/
theorem leave_runs {f : Proc n (Chan n χ) → Proc n (Chan n χ)} (hp : v.place = .run)
    (hl : .proc p ∈ v.held) (hclaim : v.claim = none) (hf : ∀ u, (f u).state = st) (hst : Left st) :
    Runs a v (edit p f) fun _ w => w = { v with place := .leaving st } := by
  refine runs_always fun s V c hcore hV hc => ?_
  subst hV
  rw [ht] at hp hl hclaim hc ⊢
  have hrun : (s.proc p).state = .running := by
    rw [hcore.states.on (by rw [hc]; rintro ⟨⟩), hp]
    rfl
  refine ⟨_, hcore.leave hc hp hl (hf _) hst, .setProc (.inr ?_), .of_none hclaim hclaim, rfl⟩
  rw [hrun]
  exact ⟨by rintro ⟨⟩, by rintro ⟨⟩, by rintro ⟨⟩⟩

/-- The tests of `sched` succeed. -/
theorem schedCheck_runs (hp : v.place = .leaving st) (hd : v.depth = 1) (hl : v.held = [.proc p])
    (hst : Left st) (hclaim : v.claim = none) : Runs (χ := χ) a v (schedCheck p) fun r w =>
      r.2 = v.ie ∧ w = { v with place := .switching r.1 st none } := by
  refine runs_act fun s V c hcore hV hc => ?_
  subst hV
  rw [ht] at hp hd hl hclaim hc ⊢
  have hlock : s.lock (.proc p) = some c := (hcore.locks _ c).mpr ⟨_, hc, by simp [hl]⟩
  have hnoff : (s.cpu c).noff = 1 := (hcore.irqs.noff hc).trans hd
  have hstate : (s.proc p).state ≠ .running := by
    rw [hcore.states.on (by rw [hc]; rintro ⟨⟩), hp]
    exact hst.ne_running
  have hsie : (s.cpu c).sie = false := by rw [hcore.irqs.sie hc, hd]; rfl
  have hintena : (s.cpu c).intena = (V (.proc p)).ie :=
    hcore.irqs.intena hc (by rw [hd]; exact one_ne_zero) (by rw [hp]; rintro ⟨⟩)
      (by rw [hp]; rintro _ ⟨⟩)
  have hnone : ∀ d : Bool, none = some d → s.ctx (.proc p) = if d then .saved else .saving := by
    rintro _ ⟨⟩
  have hkeep := hcore.save hc hd hl hst (.inl hp) hnone
  rw [State.setCtx, Function.update_eq_self] at hkeep
  simp only [hlock, hnoff, hstate, hsie, ne_eq, not_true_eq_false, if_false, Bool.false_eq_true]
  exact ⟨_, hkeep, .refl s, .of_none hclaim hclaim, hintena, rfl⟩

/-- One of the two steps in which a process saves its context. -/
theorem save_runs {done : Option Bool} (now : Bool) (hp : v.place = .switching c st done)
    (hclaim : v.claim = none) : Runs (χ := χ) a v (act fun u _ s =>
        if .proc p = u then .done () (s.setCtx (.proc p) (if now then .saved else .saving)) []
        else .halt .torn)
      fun _ w => w = { v with place := .switching c st (some now) } := by
  refine runs_act fun s V x hcore hV hc => ?_
  subst hV
  rw [ht] at hp hclaim hc ⊢
  obtain ⟨hd, hl, hst⟩ := (hcore.shape (.proc p)).switching hp
  obtain rfl : x = c := some.inj (hc.symm.trans (hcore.ctxs.pinned hp))
  have hused : (s.proc p).state ≠ .used := by
    rw [hcore.states.on (by rw [hc]; rintro ⟨⟩), hp]
    exact hst.ne_used
  simp only [if_true]
  refine ⟨_, hcore.save hc hd hl hst (.inr ⟨done, hp⟩) fun d hd => ?_, .setCtx hused,
    .of_none hclaim hclaim, rfl⟩
  rw [some.inj hd]

/-- The process switches to the scheduler of the processor it looked up. -/
theorem load_runs_sched (hp : v.place = .switching c st (some true)) (hclaim : v.claim = none) :
    Runs (χ := χ) a v (load (.sched c)) fun _ w => w =
      { v with place := parking st, ie := if st = .zombie then false else v.ie } := by
  refine runs_act fun s V x hcore hV hc => ?_
  subst hV
  rw [ht] at hp hclaim hc ⊢
  obtain ⟨hd, hl, -⟩ := (hcore.shape (.proc p)).switching hp
  obtain rfl : x = c := some.inj (hc.symm.trans (hcore.ctxs.pinned hp))
  obtain ⟨-, -, hsaved⟩ := hcore.sched_away hc
  simp only [hsaved, true_or, if_true]
  refine ⟨{ V (.proc p) with
      place := parking st, ie := if st = .zombie then false else (V (.proc p)).ie },
    hcore.park hc hp rfl hd hl rfl, .of_eq rfl id rfl fun q => goto_ctx_of_ne (by rintro ⟨⟩),
    .of_none hclaim hclaim, rfl⟩

/-- A process that has switched away and come back. -/
theorem replaced_runs (hp : v.place = parking st) :
    Runs (χ := χ) a v replaced fun r w => w = v ∧ r = decide (st = .zombie) := by
  refine runs_same fun s V c hcore hV hc => ⟨hcore, .refl s, ?_⟩
  subst hV
  rw [ht] at hp hc ⊢
  have hentry := hcore.ctxs.entry p
  rw [hp, parking] at hentry
  by_cases hz : st = .zombie
  · rw [if_pos hz] at hentry
    rw [decide_eq_true hz, hentry, hc]
    exact ⟨by rintro ⟨⟩, rfl⟩
  · rw [if_neg hz] at hentry
    rw [decide_eq_false hz, Bool.eq_false_iff, ne_eq, hentry]
    rintro ⟨-, ⟨⟩⟩

/-- `mycpu()->intena = intena` -/
theorem setIntena_runs (hp : v.place = .parked) (hclaim : v.claim = none) :
    Runs (χ := χ) a v (setIntena v.ie) fun _ w => w = { v with place := .run } := by
  refine runs_always fun s V c hcore hV hc => ?_
  subst hV
  rw [ht] at hp hclaim hc ⊢
  exact ⟨_, hcore.resume hc hp, .of_eq rfl id rfl fun _ => rfl, .of_none hclaim hclaim, rfl⟩

/-- **`sched`**, called with the lock of the process and no other, after the process has changed its
state. A process that has not ended comes back as it was. -/
theorem sched_runs (hp : v.place = .leaving st) (hd : v.depth = 1) (hl : v.held = [.proc p])
    (hst : Left st) (hclaim : v.claim = none) :
    Runs (χ := χ) a v sched fun gone w => gone = decide (st = .zombie) ∧
      w = if st = .zombie then { v with place := .out, ie := false }
        else { v with place := .run } := by
  have hplain : v.place.Plain := by rw [hp]; trivial
  refine Safe.seq_eq (mine_runs ht hplain (by rw [hl, hd]; exact le_rfl)) ?_
  refine Safe.bind (schedCheck_runs ht hp hd hl hst hclaim) ?_
  rintro ⟨c, intena⟩ _ ⟨rfl, rfl⟩
  refine Safe.bind (Runs.seq (save_runs ht false rfl hclaim)
    (Runs.seq (save_runs ht true rfl hclaim) (load_runs_sched ht rfl hclaim))) ?_
  rintro _ _ rfl
  refine Safe.bind (replaced_runs ht rfl) ?_
  rintro _ _ ⟨rfl, rfl⟩
  by_cases hz : st = .zombie
  · simp only [hz, parking, decide_true, if_true]
    exact ⟨rfl, rfl⟩
  · simp only [hz, parking, decide_false, if_false, Bool.false_eq_true]
    refine Safe.seq (setIntena_runs ht rfl hclaim) fun _ => ?_
    exact ⟨rfl, rfl⟩

theorem schedAndReturn_runs (hp : v.place = .leaving st) (hd : v.depth = 1)
    (hl : v.held = [.proc p]) (hst : Left st) (hz : st ≠ .zombie) (hclaim : v.claim = none) :
    Runs (χ := χ) a v schedAndReturn fun _ w => w = { v with place := .run } := by
  refine Safe.bind (sched_runs ht hp hd hl hst hclaim) ?_
  rintro gone _ ⟨rfl, rfl⟩
  simp only [hz, decide_false, if_false, Bool.false_eq_true]
  rfl

/-- A process that has changed its state gives up its processor and comes back. -/
theorem return_runs (h : v.Free) (hst : Left st) (hz : st ≠ .zombie) :
    Runs (χ := χ) a { v.take (.proc p) with place := .leaving st } schedAndReturn
      fun _ w => w = v.take (.proc p) := by
  refine Safe.mono (schedAndReturn_runs ht rfl (by simp [View.take, h.depth])
    (by simp [View.take, h.held]) hst hz h.claim) ?_
  rintro _ _ rfl
  exact View.run_eq (v := v.take (.proc p)) h.run

theorem sleepLocked_runs (h : v.Free) :
    Runs (χ := χ) a (v.take (.proc p)) (sleepLocked p) fun _ w => w = v.take (.proc p) := by
  refine Safe.seq (look_runs _) fun chan => ?_
  cases chan with
  | none => rfl
  | some x =>
    exact Runs.seq (leave_runs ht h.run (.head _) h.claim (fun _ => rfl) (.inr (.inl rfl)))
      (return_runs ht h (.inr (.inl rfl)) (by rintro ⟨⟩))

end

/-! ## The side of the scheduler -/

section

variable (ht : a.thread = .sched c)
include ht

/-- The scheduler finds whether a process is runnable. -/
theorem pick_runs (hp : v.place = .run) (hd : v.depth = 1) (hl : v.held = [.proc p])
    (hclaim : v.claim = none) : Runs (χ := χ) a v (pick p) fun picked w =>
      w = if picked then { v with place := .loading p none } else v := by
  refine runs_always fun s V x hcore hV hc => ?_
  subst hV
  rw [ht] at hp hd hl hclaim hc ⊢
  obtain rfl := hcore.places.home hc
  by_cases hst : (s.proc p).state = .runnable
  · simp only [hst, if_true]
    refine ⟨_, hcore.pick hc hp hd hl hst, ?_, .of_none hclaim hclaim, rfl⟩
    have hkeep : Keeps s (s.setProc p { s.proc p with state := .running }) :=
      .setProc (.inr (by rw [hst]; exact ⟨by rintro ⟨⟩, by rintro ⟨⟩, by rintro ⟨⟩⟩))
    exact ⟨hkeep.trapped, hkeep.fair, hkeep.used, hkeep.still⟩
  · simp only [hst, if_false]
    refine ⟨V (.sched x), ?_, .refl s, .refl _, rfl⟩
    rw [Function.update_eq_self]
    exact hcore

/-- One of the two steps in which the scheduler saves its context. -/
theorem store_runs {before : Option Bool} (now : Bool) (hp : v.place = .loading p before)
    (hclaim : v.claim = none) : Runs (χ := χ) a v (act fun u _ s =>
        if .sched c = u then .done () (s.setCtx (.sched c) (if now then .saved else .saving)) []
        else .halt .torn)
      fun _ w => w = { v with place := .loading p (some now) } := by
  refine runs_act fun s V x hcore hV hc => ?_
  subst hV
  rw [ht] at hp hclaim hc ⊢
  obtain rfl := hcore.places.home hc
  simp only [if_true]
  have hctx : ∀ {u y}, u ≠ .sched x → (s.setCtx (.sched x) y).ctx u = s.ctx u := fun hu =>
    Function.update_of_ne hu ..
  exact ⟨_, hcore.store hc hp now, .of_eq rfl id rfl fun q => hctx (by rintro ⟨⟩),
    .of_none hclaim hclaim, rfl⟩

/-- The scheduler switches to the process it picked. It has the lock of the process, and the context
has been saved completely. -/
theorem load_runs_proc (hp : v.place = .loading p (some true)) (hclaim : v.claim = none) :
    Runs (χ := χ) a v (load (.proc p)) fun _ w => w = { v with place := .away p } := by
  refine runs_act fun s V x hcore hV hc => ?_
  subst hV
  rw [ht] at hp hclaim hc ⊢
  obtain rfl := hcore.places.home hc
  have hnext : (V (.sched x)).place.next = some p := by rw [hp]; rfl
  have hctx : s.ctx (.proc p) = .saved ∨ s.ctx (.proc p) = .forkret := by
    rcases hcore.ready hnext with ⟨h, -⟩ | ⟨h, -⟩
    · exact .inl h
    · exact .inr h
  have hrun := (hcore.states.loading hnext).2.1
  simp only [if_pos hctx]
  refine ⟨_, hcore.dispatch hc hp,
    ⟨rfl, fun h => ⟨⟨hcore.lock_of_next hc hnext, hctx⟩, h⟩, fun q hq => ⟨hq, fun h => ?_⟩,
      fun _ _ => rfl⟩, .of_none hclaim hclaim, rfl⟩
  have hne : (.proc q : Thread n κ) ≠ .proc p := by
    rintro ⟨⟩
    rw [hrun] at hq
    cases hq
  rw [goto_ctx_of_ne hne, h]

theorem unpick_runs (hp : v.place = .away p) (hclaim : v.claim = none) :
    Runs (χ := χ) a v unpick fun _ w => w = { v with place := .run } := by
  refine runs_always fun s V x hcore hV hc => ?_
  subst hV
  rw [ht] at hp hclaim hc ⊢
  obtain rfl := hcore.places.home hc
  exact ⟨_, hcore.unpick hc hp, .of_eq rfl id rfl fun _ => rfl, .of_none hclaim hclaim, rfl⟩

end

/-- An action that sets the interrupt-enable bit while no `push_off` is open. -/
theorem setSie_runs {b : Bool} (h : v.Free) :
    Runs (χ := χ) a v (always fun _ c s => ((), s.setCpu c { s.cpu c with sie := b }))
      fun _ w => w = { v with ie := b } := by
  refine runs_always fun s V c hcore hV hc => ?_
  subst hV
  exact ⟨{ V a.thread with ie := b },
    hcore.setSie hc h.run h.depth b ⟨h.run, h.depth, h.held, rfl⟩,
    .of_eq rfl id rfl fun _ => rfl, .of_none h.claim h.claim, rfl⟩

section Locks

variable [DecidableEq ℓ]

/-! ## Sleeping and waking up -/

theorem View.Clear.acquire (h : v.Clear a) (p : Fin n) :
    Runs (χ := χ) a v (acquire (.proc p)) fun _ w => w = v.take (.proc p) :=
  acquire_runs h.run h.length_le (h.not_mem p) h.calm

theorem View.Clear.release (h : v.Clear a) (p : Fin n) :
    Runs (χ := χ) a (v.take (.proc p)) (release (.proc p)) fun _ w => w = v :=
  release_runs h.run h.length_le fun q _ _ => by simp [h.claim]

section

variable (ht : a.thread = .proc p)
include ht

theorem yield_runs (h : v.Free) : Runs (χ := χ) a v yield fun _ w => w = v := by
  have hclear := h.clear (calm_of_proc ht)
  refine Safe.seq_eq (mine_runs ht h.plain h.length_le) ?_
  refine Runs.seq (hclear.acquire _) ?_
  refine Runs.seq (leave_runs ht h.run (.head _) h.claim (fun _ => rfl) (.inl rfl)) ?_
  exact Runs.seq (return_runs ht h (.inl rfl) (by rintro ⟨⟩)) (hclear.release _)

theorem sleepPrepare_runs {x : Chan n χ} (h : v.Clear a) :
    Runs a v (sleepPrepare x) fun _ w => w = v := by
  refine Safe.seq_eq (mine_runs ht (by rw [h.run]; trivial) h.length_le) ?_
  exact Runs.seq (h.acquire _) (Runs.seq (edit_runs fun _ => rfl) (h.release _))

theorem sleep_runs (h : v.Free) : Runs (χ := χ) a v sleep fun _ w => w = v := by
  have hclear := h.clear (calm_of_proc ht)
  refine Safe.seq_eq (mine_runs ht h.plain h.length_le) ?_
  exact Runs.seq (hclear.acquire _) (Runs.seq (sleepLocked_runs ht h) (hclear.release _))

end

theorem rouse_state (u : Proc n (Chan n χ)) :
    u.rouse.state = u.state ∨ u.state = .sleeping ∧ u.rouse.state = .runnable := by
  unfold Proc.rouse
  split
  · exact .inr ⟨‹_›, rfl⟩
  · exact .inl rfl

theorem wake_state [DecidableEq χ] (x : Option (Chan n χ)) (u : Proc n (Chan n χ)) :
    (wake x u).state = u.state ∨ u.state = .sleeping ∧ (wake x u).state = .runnable := by
  unfold wake
  split
  · exact rouse_state { u with chan := none }
  · exact .inl rfl

section

variable (h : v.Clear a) {pid : Int32}
include h

theorem wakeupFrom_runs [DecidableEq χ] {x : Option (Chan n χ)}
    (ps : List (Fin n)) : Runs a v (wakeupFrom x ps) fun _ w => w = v := by
  induction ps with
  | nil => rfl
  | cons p ps ih =>
    exact Runs.seq (h.acquire p) (Runs.seq (edit_rouse_runs (wake_state x) h.run (.head _))
      (Runs.seq (h.release p) ih))

theorem wakeup_runs [DecidableEq χ] {x : Option (Chan n χ)} :
    Runs a v (wakeup x) fun _ w => w = v := wakeupFrom_runs h _

theorem kkillFrom_runs (ps : List (Fin n)) :
    Runs (χ := χ) a v (kkillFrom pid ps) fun _ w => w = v := by
  induction ps with
  | nil => rfl
  | cons p ps ih =>
    refine Runs.seq (h.acquire p) (Safe.bind (look_runs _) ?_)
    rintro found _ rfl
    cases found with
    | true =>
      exact Runs.seq (edit_rouse_runs (fun u => rouse_state _) h.run (.head _))
        (Runs.seq (h.release p) rfl)
    | false => exact Runs.seq (h.release p) ih

theorem kkill_runs : Runs (χ := χ) a v (kkill pid) fun _ w => w = v := kkillFrom_runs h _

theorem setkilled_runs : Runs (χ := χ) a v (setkilled p) fun _ w => w = v :=
  Runs.seq (h.acquire p) (Runs.seq (edit_runs fun _ => rfl) (h.release p))

theorem killed_runs : Runs (χ := χ) a v (killed p) fun _ w => w = v := by
  refine Runs.seq (h.acquire p) (Safe.bind (look_runs _) ?_)
  rintro k _ rfl
  exact Runs.seq (h.release p) rfl

end

/-! ## A turn of `scheduler` -/

/-- A turn of the loop of `scheduler`. -/
theorem schedulerFrom_runs (ht : a.thread = .sched c) (h : v.Free) (hie : v.ie = false)
    (ps : List (Fin n)) : Runs (χ := χ) a v (schedulerFrom c ps) fun _ w => w = v := by
  have hclear : v.Clear a := h.clear fun _ _ => hie
  induction ps with
  | nil => rfl
  | cons p ps ih =>
    refine Runs.seq (hclear.acquire p) ?_
    refine Safe.bind (pick_runs ht h.run (by simp [View.take, h.depth])
      (by simp [View.take, h.held]) h.claim) ?_
    rintro picked _ rfl
    refine Runs.seq ?_ (Runs.seq (hclear.release p) ih)
    cases picked with
    | false => rfl
    | true =>
      refine Runs.seq (Runs.seq (store_runs ht false rfl h.claim)
        (Runs.seq (store_runs ht true rfl h.claim) (load_runs_proc ht rfl h.claim))) ?_
      refine Safe.mono (unpick_runs ht rfl h.claim) ?_
      rintro _ _ rfl
      exact View.run_eq (v := v.take (.proc p)) h.run

/-- **One turn of `scheduler`.** -/
theorem scheduler_runs (ht : a.thread = .sched c) (h : v.Free) :
    Runs (χ := χ) a v scheduler fun _ w => w = { v with ie := false } := by
  refine Safe.bind (runs_same (Q := fun x => x = c) fun s V x hcore _ hc => ⟨hcore, .refl s, ?_⟩) ?_
  · rw [ht] at hc
    exact hcore.places.home hc
  · have hfree : ∀ b, View.Free { v with ie := b } := fun b => ⟨h.run, h.depth, h.held, h.claim⟩
    rintro _ _ ⟨rfl, rfl⟩
    exact Runs.seq (setSie_runs h) (Runs.seq (setSie_runs (hfree true))
      (schedulerFrom_runs ht (hfree false) rfl _))

/-! ## The rest of the kernel -/

/-- Whether code with this view may do the operation. -/
def Op.Allowed (a : Agent n κ) (v : View n κ ℓ) (o : Op ℓ χ) : Prop :=
  o.quiet = true ∨ v.Free ∧ (o.brief = true ∨ ∃ p, a.thread = .proc p)

variable [DecidableEq χ] {x : Work ℓ χ}

/-- One operation. -/
theorem Op.code_runs (h : v.Base a) (hH : H.length ≤ d) (hallowed : o.Allowed a v)
    (ho : o.after (d, H) = some (d', H')) :
    Runs a (v.inside d H) o.code fun _ w => w = v.inside d' H' := by
  have hplain : (v.inside d H).place.Plain := by
    show v.place.Plain
    rw [h.run]
    trivial
  -- an operation that is not about locks only is one of code that may sleep
  have hfree : o.quiet = false → v.Free ∧ (o.brief = true ∨ ∃ p, a.thread = .proc p) := by
    intro hq
    rcases hallowed with hq' | hfree
    · rw [hq] at hq'
      cases hq'
    · exact hfree
  cases o with
  | pushOff =>
    obtain ⟨rfl, rfl⟩ := Prod.mk.inj (some.inj ho)
    exact pushOff_runs hplain h.calm
  | popOff =>
    obtain ⟨hlt, rfl, rfl⟩ := Op.after_of_ite ho
    have hv := h.length_le
    refine Safe.mono (popOff_runs hplain ?_) ?_
    · simp only [View.inside, length_append, length_map]
      omega
    · rintro _ _ rfl
      simp only [View.inside]
      congr 1
      omega
  | acquire l =>
    simp only [Op.after, ite_none_left_eq_some, some.injEq, Prod.mk.injEq] at ho
    obtain ⟨hl, rfl, rfl⟩ := ho
    exact acquire_runs h.run (View.inside_length_le h.length_le hH)
      (fun hmem => hl ((View.mem_inside h.not_mem).mp hmem)) h.calm
  | release l =>
    obtain ⟨hl, rfl, rfl⟩ := Op.after_of_ite ho
    have hpos := length_pos_of_mem hl
    rw [← View.drop_inside hl (by omega)]
    exact release_runs_of (View.inside_length_le h.length_le hH)
      ((View.mem_inside h.not_mem).mpr hl) (.inl h.run) (by rintro _ _ ⟨⟩)
  | wakeup x =>
    obtain ⟨rfl, rfl⟩ := Prod.mk.inj (some.inj ho)
    exact wakeup_runs ((hfree rfl).1.inside_clear hH h.calm)
  | kkill pid =>
    obtain ⟨rfl, rfl⟩ := Prod.mk.inj (some.inj ho)
    exact Runs.seq (kkill_runs ((hfree rfl).1.inside_clear hH h.calm)) rfl
  | sleepPrepare x =>
    obtain ⟨rfl, rfl⟩ := Prod.mk.inj (some.inj ho)
    obtain ⟨hv, hproc⟩ := hfree rfl
    obtain ⟨p, ht⟩ := hproc.resolve_left Bool.false_ne_true
    exact sleepPrepare_runs ht (hv.inside_clear hH h.calm)
  | sleep =>
    obtain ⟨rfl, rfl, rfl⟩ := Op.after_of_ite ho
    obtain rfl := eq_nil_of_length_eq_zero (Nat.le_zero.mp hH)
    obtain ⟨hv, hproc⟩ := hfree rfl
    obtain ⟨p, ht⟩ := hproc.resolve_left Bool.false_ne_true
    exact sleep_runs ht hv
  | yield =>
    obtain ⟨rfl, rfl, rfl⟩ := Op.after_of_ite ho
    obtain rfl := eq_nil_of_length_eq_zero (Nat.le_zero.mp hH)
    obtain ⟨hv, hproc⟩ := hfree rfl
    obtain ⟨p, ht⟩ := hproc.resolve_left Bool.false_ne_true
    exact yield_runs ht hv

/-- A sequence of operations. -/
theorem run_runs_inside {ops : List (Op ℓ χ)} (h : v.Base a) (hH : H.length ≤ d)
    (hallowed : ∀ o ∈ ops, o.Allowed a v) (ho : Op.afterAll ops (d, H) = some (d', H')) :
    Runs a (v.inside d H) (run ops) fun _ w => w = v.inside d' H' := by
  induction ops generalizing d H with
  | nil =>
    obtain ⟨rfl, rfl⟩ := Prod.mk.inj (some.inj ho)
    rfl
  | cons o ops ih =>
    obtain ⟨⟨d₁, H₁⟩, ho₁, hrest⟩ := bind_eq_some_iff.mp ho
    exact Runs.seq (Op.code_runs h hH (hallowed o (.head _)) ho₁)
      (ih (Op.length_le_after hH ho₁) (fun o' ho' => hallowed o' (.tail _ ho')) hrest)

/-- **The rest of the kernel**: code that leaves no `push_off` open and no lock held. -/
theorem run_runs (h : v.Base a) (hallowed : ∀ o ∈ x.ops, o.Allowed a v) :
    Runs a v (run x.ops) fun _ w => w = v :=
  run_runs_inside h (d := 0) le_rfl hallowed x.balanced

/-- Code that is about interrupts and other spin locks only. -/
theorem run_runs_quiet (h : v.Base a) (hq : x.ops.all Op.quiet = true) :
    Runs a v (run x.ops) fun _ w => w = v :=
  run_runs h fun o ho => .inl (all_eq_true.mp hq o ho)

/-- Code that neither sleeps nor needs a process. -/
theorem run_runs_brief (h : v.Free) (hcalm : Calm a v)
    (hb : x.ops.all Op.brief = true) : Runs a v (run x.ops) fun _ w => w = v :=
  run_runs (h.base hcalm) fun o ho => .inr ⟨h, .inl (all_eq_true.mp hb o ho)⟩

/-- Any code of a process. -/
theorem run_runs_proc (ht : a.thread = .proc p) (h : v.Free) :
    Runs a v (run x.ops) fun _ w => w = v :=
  run_runs (h.base (calm_of_proc ht)) fun _ _ => .inr ⟨h, .inr ⟨p, ht⟩⟩

end Locks

end Sched

end TrinityXv6
