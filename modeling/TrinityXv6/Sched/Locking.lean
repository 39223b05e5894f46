import TrinityXv6.Sched.Switch

/-!
# Code that takes locks

What a program of the kernel does to the view of the agent that runs it: first a rule for one
action, then interrupts, spin locks, and looking at processes and changing them.

A view that is the same before and after says that the program leaves the agent where it was, with
the same locks and the same interrupt-enable bit.
-/

namespace TrinityXv6

namespace Sched

open Threads
open Process (ProcState Proc)
open Function (update update_self update_of_ne update_eq_self)

variable {n : ℕ} {κ ℓ χ α β : Type} {s s' : State n κ ℓ χ} {G : Ghost n κ ℓ} {a : Agent n κ}
  {v w : View n κ ℓ} {c : κ} {p : Fin n} {l : Lock n ℓ} {u : Proc n (Chan n χ)}

/-! ## Actions -/

theorem top_self (ha : s.trapped a.thread = a.isIrq) : top s G a.thread = G a := by
  cases a with
  | main t => exact if_neg (Bool.eq_false_iff.mp ha)
  | irq t => exact if_pos ha

/-- The agent goes on working on the same slot. -/
def View.Follows (v w : View n κ ℓ) : Prop :=
  w.claim = v.claim ∧ ∀ p st, v.claim = some (.holding p st) → w.place = v.place ∧
    (.proc p ∈ v.held → .proc p ∈ w.held)

theorem View.Follows.refl (v : View n κ ℓ) : v.Follows v := ⟨rfl, fun _ _ _ => ⟨rfl, id⟩⟩

/-- An agent that is working on no slot. -/
theorem View.Follows.of_none (hv : v.claim = none) (hw : w.claim = none) : v.Follows w :=
  ⟨hw.trans hv.symm, fun p st hp => by rw [hv] at hp; cases hp⟩

theorem setProc_state (h : u.state = (s.proc p).state) (q : Fin n) :
    ((s.setProc p u).proc q).state = (s.proc q).state :=
  view_update Proc.state h q

/-- The scheduler has interrupts off, other than for a moment. -/
def Calm (a : Agent n κ) (v : View n κ ℓ) : Prop := ∀ c, a.thread = .sched c → v.ie = false

theorem calm_of_proc (ht : a.thread = .proc p) : Calm a v := fun c hc => by
  rw [ht] at hc
  cases hc

variable [DecidableEq κ]

theorem top_update (ha : s.trapped a.thread = a.isIrq) (htr : s'.trapped = s.trapped) :
    top s' (update G a v) = update (top s G) a.thread v := by
  funext u
  by_cases hu : u = a.thread
  · rw [hu, update_self, top_self (by rw [htr]; exact ha), update_self]
  · have hmain : (.main u : Agent n κ) ≠ a := by
      rintro rfl
      exact hu rfl
    have hirq : (.irq u : Agent n κ) ≠ a := by
      rintro rfl
      exact hu rfl
    rw [update_of_ne hu, top, top, htr, update_of_ne hmain, update_of_ne hirq]

/-- What most actions leave alone: interrupted code, slots that `kfork` is working on, free slots
and processes that have ended. -/
structure Keeps (s s' : State n κ ℓ χ) : Prop where
  trapped : s'.trapped = s.trapped
  fair : Fair s.hist → Fair s'.hist
  used : ∀ p, (s.proc p).state = .used → (s'.proc p).state = .used ∧
    (s.ctx (.proc p) = .forkret → s'.ctx (.proc p) = .forkret)
  still : ∀ p, (s.proc p).state = .unused ∨ (s.proc p).state = .zombie →
    (s'.proc p).state = (s.proc p).state

theorem Keeps.refl (s : State n κ ℓ χ) : Keeps s s :=
  ⟨rfl, id, fun _ h => ⟨h, id⟩, fun _ _ => rfl⟩

/-- An action that changes no process and no context of a process. -/
theorem Keeps.of_eq (htr : s'.trapped = s.trapped) (hfair : Fair s.hist → Fair s'.hist)
    (hproc : s'.proc = s.proc) (hctx : ∀ q, s'.ctx (.proc q) = s.ctx (.proc q)) : Keeps s s' :=
  ⟨htr, hfair, fun q h => ⟨by rwa [hproc], by rw [hctx]; exact id⟩, fun q _ => by rw [hproc]⟩

/-- An action that changes one process, which keeps its state or has neither ended nor a slot that
somebody is working on. -/
theorem Keeps.setProc (h : u.state = (s.proc p).state ∨
    (s.proc p).state ≠ .used ∧ (s.proc p).state ≠ .unused ∧ (s.proc p).state ≠ .zombie) :
    Keeps s (s.setProc p u) := by
  have hself : (s.setProc p u).proc p = u := update_self ..
  have hother : ∀ {q}, q ≠ p → (s.setProc p u).proc q = s.proc q := fun hq =>
    update_of_ne hq ..
  refine ⟨rfl, id, fun q hq => ⟨?_, id⟩, fun q hq => ?_⟩
  · by_cases hqp : q = p
    · subst hqp
      rcases h with h | h
      · rw [hself, h, hq]
      · exact absurd hq h.1
    · rwa [hother hqp]
  · by_cases hqp : q = p
    · subst hqp
      rcases h with h | h
      · rw [hself, h]
      · exact (hq.elim h.2.1 h.2.2).elim
    · rw [hother hqp]

theorem Claim.Holds.keep {x : Claim n} (h : x.Holds s v) (hk : Keeps s s') (hf : v.Follows w)
    (hx : v.claim = some x) : x.Holds s' w := by
  cases x with
  | holding q st =>
    obtain ⟨hst, hq, hrun, hl⟩ := h
    obtain ⟨hplace, hheld⟩ := hf.2 q st hx
    refine ⟨hst, ?_, hplace.trans hrun, hheld hl⟩
    rw [hk.still q (by rwa [hq]), hq]
  | making q ready =>
    obtain ⟨hused, hctx⟩ := h
    exact ⟨(hk.used q hused).1, fun hb => (hk.used q hused).2 (hctx hb)⟩

theorem Claims.keep {M M' : Views n κ ℓ} (h : Claims s M) (hk : Keeps s s')
    (hM : ∀ u, (M u).Follows (M' u)) : Claims s' M' where
  holds {t x} hx := by
    rw [(hM t).1] at hx
    exact (h.holds hx).keep hk (hM t) hx
  unique {t u q b b'} ht hu := by
    rw [(hM t).1] at ht
    rw [(hM u).1] at hu
    exact h.unique ht hu

/-- An action of the code on a stack. -/
theorem Inv.step (hI : Inv s G) (ha : s.trapped a.thread = a.isIrq)
    (hcore : Core s' (update (top s G) a.thread w)) (htr : s'.trapped = s.trapped)
    (hclaims : Claims s' fun t => update G a w (.main t)) (hfair : Fair s'.hist) :
    Inv s' (update G a w) where
  core := by rwa [top_update ha htr]
  frozen t ht := by
    rw [htr] at ht
    have hne : (.main t : Agent n κ) ≠ a := by
      rintro rfl
      rw [show s.trapped t = false from ha] at ht
      cases ht
    rw [update_of_ne hne]
    exact hI.frozen t ht
  claims := hclaims
  fair := hfair

/-- An action that leaves the slots alone that system calls are working on. -/
theorem Inv.keep (hI : Inv s G) (ha : s.trapped a.thread = a.isIrq)
    (hcore : Core s' (update (top s G) a.thread w)) (hk : Keeps s s')
    (hf : (G a).Follows w) : Inv s' (update G a w) := by
  refine hI.step ha hcore hk.trapped (hI.claims.keep hk fun u => ?_) (hk.fair hI.fair)
  by_cases hu : (.main u : Agent n κ) = a
  · rw [hu, update_self]
    exact hf
  · rw [update_of_ne hu]
    exact .refl _

/-- The program can run whenever agent `a` has the view `v`, and ends with `Q`. The one panic that
it can come to is that of the first process exiting. -/
abbrev Runs (a : Agent n κ) (v : View n κ ℓ) (code : Code n κ ℓ χ α)
    (Q : α → View n κ ℓ → Prop) : Prop :=
  Safe (guardedLogic Unit (fun e : Halt => e = .initExiting) Inv) a Q code v

theorem Runs.seq {code : Code n κ ℓ χ α} {rest : Code n κ ℓ χ β} {Q : β → View n κ ℓ → Prop}
    (h : Runs a v code fun _ v' => v' = w) (hrest : Runs a w rest Q) :
    Runs a v (code >>= fun _ => rest) Q := by
  refine Safe.bind h ?_
  rintro _ _ rfl
  exact hrest

variable {Q : α → View n κ ℓ → Prop}

/-- The rule for an action that may do anything to the invariant. -/
theorem runs_inv {f : Thread n κ → κ → State n κ ℓ χ → Outcome Unit Halt (State n κ ℓ χ) α}
    (h : ∀ s G c, Inv s G → s.trapped a.thread = a.isIrq → G a = v → top s G a.thread = v →
      s.cpuOf a.thread = some c →
      (f a.thread c s).Ends (· = .initExiting) fun b s' => ∃ w, Inv s' (update G a w) ∧ Q b w) :
    Runs a v (act f) Q := by
  refine safe_act_guarded fun s G hI hG => ?_
  cases hc : s.cpuOf a.thread with
  | none => trivial
  | some c =>
    by_cases ha : s.trapped a.thread = a.isIrq
    · simp only [if_pos ha]
      exact h s G c hI ha hG ((top_self ha).trans hG) hc
    · simp only [if_neg ha]
      trivial

/-- **The rule for an action** that leaves the slots alone that system calls are working on. -/
theorem runs_act {f : Thread n κ → κ → State n κ ℓ χ → Outcome Unit Halt (State n κ ℓ χ) α}
    (h : ∀ s V c, Core s V → V a.thread = v → s.cpuOf a.thread = some c →
      (f a.thread c s).Ends (· = .initExiting) fun b s' =>
        ∃ w, Core s' (update V a.thread w) ∧ Keeps s s' ∧ v.Follows w ∧ Q b w) :
    Runs a v (act f) Q := by
  refine runs_inv fun s G c hI ha hG htop hc => ?_
  refine (h s (top s G) c hI.core htop hc).mono fun b s' hdone => ?_
  obtain ⟨w, hcore, hk, hfol, hQ⟩ := hdone
  exact ⟨w, hI.keep ha hcore hk (by rw [hG]; exact hfol), hQ⟩

/-- The rule for an action that completes. -/
theorem runs_always {f : Thread n κ → κ → State n κ ℓ χ → α × State n κ ℓ χ}
    (h : ∀ s V c, Core s V → V a.thread = v → s.cpuOf a.thread = some c →
      ∃ w, Core (f a.thread c s).2 (update V a.thread w) ∧ Keeps s (f a.thread c s).2 ∧
        v.Follows w ∧ Q (f a.thread c s).1 w) : Runs a v (always f) Q :=
  runs_act fun s V c hcore hV hc => h s V c hcore hV hc

/-- An action that leaves the view of the agent as it is. -/
theorem runs_same {f : Thread n κ → κ → State n κ ℓ χ → α × State n κ ℓ χ} {Q : α → Prop}
    (h : ∀ s V c, Core s V → V a.thread = v → s.cpuOf a.thread = some c →
      Core (f a.thread c s).2 V ∧ Keeps s (f a.thread c s).2 ∧ Q (f a.thread c s).1) :
    Runs a v (always f) fun b w => w = v ∧ Q b := by
  refine runs_always fun s V c hcore hV hc => ?_
  obtain ⟨hcore', hk, hQ⟩ := h s V c hcore hV hc
  refine ⟨v, ?_, hk, .refl v, rfl, hQ⟩
  rw [← hV, update_eq_self]
  exact hcore'

/-! ## Interrupts and spin locks -/

theorem pushOff_runs (hp : v.place.Plain) (hcalm : Calm a v) :
    Runs (χ := χ) a v pushOff fun _ w => w = { v with depth := v.depth + 1 } := by
  refine runs_always fun s V c hcore hV hc => ?_
  subst hV
  exact ⟨_, hcore.pushOff hc hp hcalm, .of_eq rfl (fun h => ⟨trivial, h⟩) rfl fun _ => rfl,
    ⟨rfl, fun _ _ _ => ⟨rfl, id⟩⟩, rfl⟩

theorem popOff_runs (hp : v.place.Plain) (hd : v.held.length < v.depth) :
    Runs (χ := χ) a v popOff fun _ w => w = { v with depth := v.depth - 1 } := by
  refine runs_act fun s V c hcore hV hc => ?_
  subst hV
  have hdepth : (V a.thread).depth ≠ 0 := by omega
  obtain ⟨hsie, hnoff⟩ := hcore.popOff_ready hc hdepth
  have hfair := hcore.popOff_fair hc hp hdepth
  simp only [hsie, Bool.false_eq_true, if_false, if_neg hnoff]
  exact ⟨_, hcore.popOff hc hp hd, .of_eq rfl (fun h => ⟨hfair, h⟩) rfl fun _ => rfl,
    ⟨rfl, fun _ _ _ => ⟨rfl, id⟩⟩, rfl⟩

section Locks

variable [DecidableEq ℓ]

theorem tryLock_runs (hp : v.place = .run) (hd : v.held.length < v.depth) (hl : l ∉ v.held) :
    Runs (χ := χ) a v (tryLock l) fun _ w => w = { v with held := l :: v.held } := by
  refine runs_act fun s V c hcore hV hc => ?_
  subst hV
  cases hlock : s.lock l with
  | none =>
    exact ⟨_, hcore.lock hc hp hd hlock, .of_eq rfl id rfl fun _ => rfl,
      ⟨rfl, fun _ _ _ => ⟨rfl, .tail l⟩⟩, rfl⟩
  | some c' =>
    -- this processor does not hold the lock, or else its stack would
    have hne : c' ≠ c := by
      rintro rfl
      obtain ⟨u, hu, hheld⟩ := (hcore.locks l c').mp hlock
      obtain rfl := hcore.places.one hu hc
      exact hl hheld
    simp only [if_neg hne]
    trivial

/-- The view with one more lock. -/
def View.take (v : View n κ ℓ) (l : Lock n ℓ) : View n κ ℓ :=
  { v with depth := v.depth + 1, held := l :: v.held }

/-- The view with one lock less. -/
def View.drop (v : View n κ ℓ) (l : Lock n ℓ) : View n κ ℓ :=
  { v with depth := v.depth - 1, held := v.held.erase l }

omit [DecidableEq κ] in
@[simp] theorem View.drop_take (v : View n κ ℓ) (l : Lock n ℓ) : (v.take l).drop l = v := by
  simp [take, drop]

/-- `acquire` of a lock that is not held. -/
theorem acquire_runs (hp : v.place = .run) (hd : v.held.length ≤ v.depth) (hl : l ∉ v.held)
    (hcalm : Calm a v) : Runs (χ := χ) a v (acquire l) fun _ w => w = v.take l :=
  Runs.seq (pushOff_runs (by rw [hp]; trivial) hcalm) (tryLock_runs hp (Nat.lt_succ_of_le hd) hl)

theorem unlock_runs (hl : l ∈ v.held)
    (hp : v.place = .run ∨ (∃ st, v.place = .leaving st) ∧ ∀ q, l ≠ .proc q)
    (hclaim : ∀ q st, l = .proc q → v.claim ≠ some (.holding q st)) :
    Runs (χ := χ) a v (unlock l) fun _ w => w = { v with held := v.held.erase l } := by
  refine runs_act fun s V c hcore hV hc => ?_
  subst hV
  simp only [if_pos ((hcore.locks l c).mpr ⟨_, hc, hl⟩)]
  refine ⟨_, hcore.unlock hc hl hp, .of_eq rfl id rfl fun _ => rfl,
    ⟨rfl, fun q st hq => ⟨rfl, fun hmem => ?_⟩⟩, rfl⟩
  exact (List.mem_erase_of_ne fun heq => hclaim q st heq.symm hq).mpr hmem

theorem release_runs_of (hd : v.held.length ≤ v.depth) (hl : l ∈ v.held)
    (hp : v.place = .run ∨ (∃ st, v.place = .leaving st) ∧ ∀ q, l ≠ .proc q)
    (hclaim : ∀ q st, l = .proc q → v.claim ≠ some (.holding q st)) :
    Runs (χ := χ) a v (release l) fun _ w => w = v.drop l := by
  refine Runs.seq (unlock_runs hl hp hclaim) (popOff_runs ?_ ?_)
  · rcases hp with hp | ⟨⟨st, hp⟩, -⟩
    · rw [hp]
      trivial
    · rw [hp]
      trivial
  · show (v.held.erase l).length < v.depth
    have hpos : 0 < v.held.length := List.length_pos_of_mem hl
    rw [List.length_erase_of_mem hl]
    omega

/-- `release` of the lock that was taken last. -/
theorem release_runs (hp : v.place = .run) (hd : v.held.length ≤ v.depth)
    (hclaim : ∀ q st, l = .proc q → v.claim ≠ some (.holding q st)) :
    Runs (χ := χ) a (v.take l) (release l) fun _ w => w = v := by
  have h := release_runs_of (χ := χ) (a := a) (v := v.take l) (Nat.succ_le_succ hd)
    (.head _) (.inl hp) hclaim
  rwa [View.drop_take] at h

end Locks

/-! ## Looking at processes and changing them -/

theorem look_runs (f : Proc n (Chan n χ) → α) : Runs a v (look p f) fun _ w => w = v :=
  Safe.mono (runs_same (Q := fun _ => True) fun s _ _ hcore _ _ => ⟨hcore, .refl s, trivial⟩)
    fun _ _ h => h.1

/-- A change that does not touch the state of the process. -/
theorem edit_runs {f : Proc n (Chan n χ) → Proc n (Chan n χ)} (hf : ∀ u, (f u).state = u.state) :
    Runs a v (edit p f) fun _ w => w = v := by
  refine Safe.mono (runs_same (Q := fun _ => True) fun s _ _ hcore _ _ => ⟨?_, ?_, trivial⟩)
    fun _ _ h => h.1
  · exact hcore.congr rfl rfl rfl rfl rfl (fun _ => rfl) (setProc_state (hf _))
  · exact .setProc (.inl (hf _))

/-- A change that at most makes a sleeping process runnable, with the lock of the process. -/
theorem edit_rouse_runs {f : Proc n (Chan n χ) → Proc n (Chan n χ)}
    (hf : ∀ u, (f u).state = u.state ∨ u.state = .sleeping ∧ (f u).state = .runnable)
    (hp : v.place = .run) (hl : .proc p ∈ v.held) : Runs a v (edit p f) fun _ w => w = v := by
  refine Safe.mono (runs_same (Q := fun _ => True) fun s V c hcore hV hc => ?_) fun _ _ h => h.1
  subst hV
  rcases hf (s.proc p) with hst | ⟨hst, hrun⟩
  · exact ⟨hcore.congr rfl rfl rfl rfl rfl (fun _ => rfl) (setProc_state hst),
      .setProc (.inl hst), trivial⟩
  · refine ⟨hcore.rouse hc hl hp hst hrun, .setProc (.inr ?_), trivial⟩
    rw [hst]
    exact ⟨by rintro ⟨⟩, by rintro ⟨⟩, by rintro ⟨⟩⟩

/-- `myproc` on the stack of a process. -/
theorem myproc_runs (ht : a.thread = .proc p) (hp : v.place.Plain) (hd : v.held.length ≤ v.depth) :
    Runs (χ := χ) a v myproc fun r w => r = some p ∧ w = v := by
  refine Runs.seq (pushOff_runs hp (calm_of_proc ht)) ?_
  refine Safe.bind (runs_same (Q := fun r => r = some p) fun s V c hcore _ hc =>
    ⟨hcore, .refl s, ?_⟩) ?_
  · rw [ht] at hc
    rw [hcore.places.proc, hcore.places.guest hc]
    rfl
  · rintro r _ ⟨rfl, rfl⟩
    refine Safe.seq (popOff_runs hp (Nat.lt_succ_of_le hd)) fun _ => ?_
    exact ⟨rfl, rfl⟩

/-- `myproc` on the stack of a scheduler that has picked no process. -/
theorem myproc_runs_sched (ht : a.thread = .sched c) (hp : v.place = .run)
    (hd : v.held.length ≤ v.depth) (hie : v.ie = false) :
    Runs (χ := χ) a v myproc fun r w => r = none ∧ w = v := by
  have hplain : v.place.Plain := by rw [hp]; trivial
  refine Runs.seq (pushOff_runs hplain fun _ _ => hie) ?_
  refine Safe.bind (runs_same (Q := fun r => r = none) fun s V x hcore hV hc =>
    ⟨hcore, .refl s, ?_⟩) ?_
  · rw [ht] at hc hV
    obtain rfl := hcore.places.home hc
    cases hproc : (s.cpu x).proc with
    | none => rfl
    | some q =>
      rw [hcore.places.proc, hV] at hproc
      change v.place.pick = some q at hproc
      rw [hp] at hproc
      cases hproc
  · rintro r _ ⟨rfl, rfl⟩
    refine Safe.seq (popOff_runs hplain (Nat.lt_succ_of_le hd)) fun _ => ?_
    exact ⟨rfl, rfl⟩

/-- **`myproc()` is the process whose stack it is.** -/
theorem mine_runs (ht : a.thread = .proc p) (hp : v.place.Plain) (hd : v.held.length ≤ v.depth) :
    Runs (χ := χ) a v mine fun r w => r = p ∧ w = v := by
  refine Safe.seq_eq (myproc_runs ht hp hd) ?_
  exact ⟨rfl, rfl⟩

end Sched

end TrinityXv6
