import TrinityXv6.Sched.Machine

/-!
# The invariant of the scheduler

Where each stack is with respect to the processors, who holds which lock, how deep each stack is in
`push_off`s and what its interrupt-enable bit was before the outermost one, what the contexts hold,
and which state each process is in.

`p->lock` is handed across `swtch`. In the invariant both the process that has switched away and the
scheduler that has switched to a process have the lock among those that they hold, but only a stack
that a processor is on holds its locks really. So the handover is that the processor changes stacks.
-/

namespace TrinityXv6

namespace Sched

open Threads
open Process (ProcState Proc)

variable {n : ℕ} {κ ℓ χ : Type}

/-! ## What has happened -/

/-- The interrupt-enable bits before the `push_off`s that are open on a stack, innermost first. The
scheduler's `push_off` on behalf of a new process counts as one without such a bit. -/
def opened [DecidableEq κ] (t : Thread n κ) : List (Event n κ) → List (Option Bool)
  | [] => []
  | .pushed u was :: h => if u = t then some was :: opened t h else opened t h
  | .popped u _ :: h => if u = t then (opened t h).tail else opened t h
  | .born p :: h => if t = .proc p then [none] else opened t h
  | .switched .. :: h => opened t h
  | .freed .. :: h => opened t h

/-- What has to hold of an event when it happens, after what happened before. -/
def Event.Fair [DecidableEq κ] (h : List (Event n κ)) : Event n κ → Prop
  | .pushed .. => True
  | .popped t now => (∀ was, opened t h = [some was] → now = was) ∧ ∀ c, t = .sched c → now = false
  | .born _ => True
  | .switched c _ holder ctx => holder = some c ∧ (ctx = .saved ∨ ctx = .forkret)
  | .freed p procs cpu => (∀ c, procs c ≠ some p) ∧ cpu = none

/-- It held of every event. -/
def Fair [DecidableEq κ] : List (Event n κ) → Prop
  | [] => True
  | e :: h => e.Fair h ∧ Fair h

/-! ## Views -/

/-- Where the code on a stack is. -/
inductive Place (n : ℕ) (κ : Type) where
  /-- A process that has ended or not begun. -/
  | out
  | run
  /-- A process that holds its lock and has changed its state. -/
  | leaving (st : ProcState)
  /-- It has looked up its processor. Perhaps it is saving its context, or has. -/
  | switching (c : κ) (st : ProcState) (done : Option Bool)
  /-- It has switched to the scheduler. -/
  | parked
  /-- A scheduler that has picked a process, perhaps is saving its own context, or has. -/
  | loading (p : Fin n) (done : Option Bool)
  /-- It has switched to the process. -/
  | away (p : Fin n)

/-- The state of the process itself, on a processor. -/
def Place.state : Place n κ → ProcState
  | .leaving st => st
  | .switching _ st _ => st
  | _ => .running

/-- The process a scheduler is about to switch to. -/
def Place.next : Place n κ → Option (Fin n)
  | .loading p _ => some p
  | _ => none

/-- The process a scheduler has picked. -/
def Place.pick : Place n κ → Option (Fin n)
  | .loading p _ => some p
  | .away p => some p
  | _ => none

/-- The slot of another process that a system call is working on. -/
inductive Claim (n : ℕ) where
  /-- It has the lock, and has found that the slot is free or that the process has ended. -/
  | holding (p : Fin n) (st : ProcState)
  /-- `kfork` has taken the slot, and perhaps has set up its context. -/
  | making (p : Fin n) (ready : Bool)

/-- The slot. -/
def Claim.slot : Claim n → Fin n
  | .holding p _ => p
  | .making p _ => p

/-- What the code on a stack knows: how many `push_off`s are open, which locks it holds, what the
interrupt-enable bit is or was before the outermost `push_off`, and the slot it is working on. -/
structure View (n : ℕ) (κ ℓ : Type) where
  place : Place n κ
  depth : ℕ
  held : List (Lock n ℓ)
  ie : Bool
  claim : Option (Claim n)

/-- States in which a process can call `sched`. -/
def Left (st : ProcState) : Prop := st = .runnable ∨ st = .sleeping ∨ st = .zombie

/-- What the place says about the rest. -/
def Shape (t : Thread n κ) (v : View n κ ℓ) : Prop :=
  match v.place with
  | .run => v.held.length ≤ v.depth ∧ v.held.Nodup
  | .out => ∃ p, t = .proc p ∧ v.depth = 1 ∧ v.held = [.proc p] ∧ v.ie = false
  | .leaving st => ∃ p, t = .proc p ∧ v.held.length ≤ v.depth ∧ v.held.Nodup ∧
      .proc p ∈ v.held ∧ Left st
  | .switching _ st _ => ∃ p, t = .proc p ∧ v.depth = 1 ∧ v.held = [.proc p] ∧ Left st
  | .parked => ∃ p, t = .proc p ∧ v.depth = 1 ∧ v.held = [.proc p]
  | .loading p _ => ∃ c, t = .sched c ∧ v.depth = 1 ∧ v.held = [.proc p] ∧ v.ie = false
  | .away p => ∃ c, t = .sched c ∧ v.depth = 1 ∧ v.held = [.proc p] ∧ v.ie = false

/-- The views of the code that runs on each stack, or would if a processor were there. -/
abbrev Views (n : ℕ) (κ ℓ : Type) := Thread n κ → View n κ ℓ

/-- Where the processors are. -/
structure Places (s : State n κ ℓ χ) (V : Views n κ ℓ) : Prop where
  one : ∀ {t u c}, s.cpuOf t = some c → s.cpuOf u = some c → t = u
  home : ∀ {c c'}, s.cpuOf (.sched c) = some c' → c' = c
  proc : ∀ c p, (s.cpu c).proc = some p ↔ (V (.sched c)).place.pick = some p
  unique : ∀ {c c' p}, (V (.sched c)).place.pick = some p → (V (.sched c')).place.pick = some p →
    c = c'
  guest : ∀ {p c}, s.cpuOf (.proc p) = some c → (V (.sched c)).place = .away p
  away : ∀ {c p}, (V (.sched c)).place = .away p → s.cpuOf (.sched c) = none →
    s.cpuOf (.proc p) = some c
  here : ∀ {c}, (∀ p, (V (.sched c)).place ≠ .away p) → s.cpuOf (.sched c) = some c

/-- A lock is held by a processor that is on a stack whose code holds it. -/
def Locks (s : State n κ ℓ χ) (V : Views n κ ℓ) : Prop :=
  ∀ l c, s.lock l = some c ↔ ∃ t, s.cpuOf t = some c ∧ l ∈ (V t).held

/-- Interrupts are as the code that runs expects. -/
structure Irqs [DecidableEq κ] (s : State n κ ℓ χ) (V : Views n κ ℓ) : Prop where
  noff : ∀ {t c}, s.cpuOf t = some c → (s.cpu c).noff = (V t).depth
  sie : ∀ {t c}, s.cpuOf t = some c → (s.cpu c).sie = (decide ((V t).depth = 0) && (V t).ie)
  intena : ∀ {t c}, s.cpuOf t = some c → (V t).depth ≠ 0 → (V t).place ≠ .parked →
    (∀ p, (V t).place ≠ .away p) → (s.cpu c).intena = (V t).ie
  nest : ∀ {t}, (V t).place ≠ .out → (opened t s.hist).length = (V t).depth
  outer : ∀ {t w}, (V t).place ≠ .out → (opened t s.hist).getLast? = some (some w) → w = (V t).ie
  calm : ∀ {c}, (V (.sched c)).depth ≠ 0 → (V (.sched c)).ie = false

/-- The contexts are what the places say. -/
structure Ctxs [DecidableEq κ] (s : State n κ ℓ χ) (V : Views n κ ℓ) : Prop where
  pinned : ∀ {t c st done}, (V t).place = .switching c st done → s.cpuOf t = some c
  switching : ∀ {t c st done}, (V t).place = .switching c st (some done) →
    s.ctx t = if done then .saved else .saving
  loading : ∀ {t p done}, (V t).place = .loading p (some done) →
    s.ctx t = if done then .saved else .saving
  parked : ∀ {t}, (V t).place = .parked → s.cpuOf t = none → s.ctx t = .saved
  away : ∀ {t p}, (V t).place = .away p → s.cpuOf t = none → s.ctx t = .saved
  entry : ∀ p, s.entry p = true ↔ s.cpuOf (.proc p) ≠ none ∧ (V (.proc p)).place = .out
  born : ∀ {p}, (V (.proc p)).place = .out →
    s.entry p = true ∨ s.cpuOf (.proc p) = none ∧ s.ctx (.proc p) = .forkret →
    opened (.proc p) s.hist = [none]

/-- A process that can be switched to. -/
def Loadable (s : State n κ ℓ χ) (V : Views n κ ℓ) (p : Fin n) : Prop :=
  (V (.proc p)).place = .parked ∨ (V (.proc p)).place = .out ∧ s.ctx (.proc p) = .forkret

/-- The state of a process that nobody is about to switch to and that is on no processor. -/
def Resting (s : State n κ ℓ χ) (V : Views n κ ℓ) (p : Fin n) : Prop :=
  (s.proc p).state = .runnable ∧ Loadable s V p ∨
  (s.proc p).state = .sleeping ∧ (V (.proc p)).place = .parked ∨
  ((s.proc p).state = .unused ∨ (s.proc p).state = .used ∨ (s.proc p).state = .zombie) ∧
    (V (.proc p)).place = .out

/-- The states of the processes. -/
structure States (s : State n κ ℓ χ) (V : Views n κ ℓ) : Prop where
  on : ∀ {p}, s.cpuOf (.proc p) ≠ none → (s.proc p).state = (V (.proc p)).place.state
  loading : ∀ {c p}, (V (.sched c)).place.next = some p →
    s.cpuOf (.proc p) = none ∧ (s.proc p).state = .running ∧ Loadable s V p
  off : ∀ {p}, s.cpuOf (.proc p) = none → (∀ c, (V (.sched c)).place.next ≠ some p) →
    Resting s V p

/-- The parts of the invariant that are about the code that runs on each stack. -/
structure Core [DecidableEq κ] (s : State n κ ℓ χ) (V : Views n κ ℓ) : Prop where
  shape : ∀ t, Shape t (V t)
  places : Places s V
  locks : Locks s V
  irqs : Irqs s V
  ctxs : Ctxs s V
  states : States s V

/-- What code that is working on a slot knows about it. -/
def Claim.Holds (s : State n κ ℓ χ) (v : View n κ ℓ) : Claim n → Prop
  | .holding p st => (st = .unused ∨ st = .zombie) ∧ (s.proc p).state = st ∧ v.place = .run ∧
      .proc p ∈ v.held
  | .making p ready => (s.proc p).state = .used ∧ (ready = true → s.ctx (.proc p) = .forkret)

/-- The slots that system calls are working on. -/
structure Claims (s : State n κ ℓ χ) (M : Views n κ ℓ) : Prop where
  holds : ∀ {t x}, (M t).claim = some x → x.Holds s (M t)
  unique : ∀ {t u p b b'}, (M t).claim = some (.making p b) → (M u).claim = some (.making p b') →
    t = u

/-- The views of the programs. -/
abbrev Ghost (n : ℕ) (κ ℓ : Type) := Agent n κ → View n κ ℓ

/-- The view of the code that runs on a stack. -/
def top (s : State n κ ℓ χ) (G : Ghost n κ ℓ) : Views n κ ℓ := fun t =>
  if s.trapped t then G (.irq t) else G (.main t)

/-- The view of code that an interrupt can stop: no `push_off` is open, and interrupts are on. -/
def View.Open (v : View n κ ℓ) : Prop := v.place = .run ∧ v.depth = 0 ∧ v.held = [] ∧ v.ie = true

/-- **The invariant.** -/
structure Inv [DecidableEq κ] (s : State n κ ℓ χ) (G : Ghost n κ ℓ) : Prop where
  core : Core s (top s G)
  frozen : ∀ t, s.trapped t = true → (G (.main t)).Open
  claims : Claims s fun t => G (.main t)
  fair : Fair s.hist

section Core

variable [DecidableEq κ] {s : State n κ ℓ χ} {V : Views n κ ℓ} {t : Thread n κ} {c : κ} {p : Fin n}
  {l : Lock n ℓ}

/-- A lock is held by one stack. -/
theorem Core.eq_of_held (h : Core s V) {u : Thread n κ} {c' : κ} (ht : s.cpuOf t = some c)
    (hu : s.cpuOf u = some c') (hlt : l ∈ (V t).held) (hlu : l ∈ (V u).held) : t = u := by
  have h₁ := (h.locks l c).mpr ⟨t, ht, hlt⟩
  have h₂ := (h.locks l c').mpr ⟨u, hu, hlu⟩
  rw [h₁] at h₂
  cases h₂
  exact h.places.one ht hu

section Shape

omit [DecidableEq κ]

variable {v : View n κ ℓ} {done : Option Bool} {st : ProcState}

theorem Shape.out (h : Shape (κ := κ) (.proc p) v) (hp : v.place = .out) :
    v.depth = 1 ∧ v.held = [.proc p] ∧ v.ie = false := by
  unfold Shape at h
  simp only [hp] at h
  obtain ⟨q, hq, hrest⟩ := h
  rw [Thread.proc.inj hq]
  exact hrest

theorem Shape.leaving (h : Shape (.proc p) v) (hp : v.place = .leaving st) : Left st := by
  unfold Shape at h
  simp only [hp] at h
  obtain ⟨-, -, -, -, -, hst⟩ := h
  exact hst

theorem Shape.switching (h : Shape (.proc p) v)
    (hp : v.place = .switching c st done) : v.depth = 1 ∧ v.held = [.proc p] ∧ Left st := by
  unfold Shape at h
  simp only [hp] at h
  obtain ⟨q, hq, hrest⟩ := h
  rw [Thread.proc.inj hq]
  exact hrest

theorem Shape.parked (h : Shape (.proc p) v) (hp : v.place = .parked) :
    v.depth = 1 ∧ v.held = [.proc p] := by
  unfold Shape at h
  simp only [hp] at h
  obtain ⟨q, hq, hrest⟩ := h
  rw [Thread.proc.inj hq]
  exact hrest

theorem Shape.loading (h : Shape t v) (hp : v.place = .loading p done) :
    v.depth = 1 ∧ v.held = [.proc p] ∧ v.ie = false := by
  unfold Shape at h
  simp only [hp] at h
  obtain ⟨-, -, hrest⟩ := h
  exact hrest

theorem Shape.away (h : Shape t v) (hp : v.place = .away p) :
    v.depth = 1 ∧ v.held = [.proc p] ∧ v.ie = false := by
  unfold Shape at h
  simp only [hp] at h
  obtain ⟨-, -, hrest⟩ := h
  exact hrest

/-- A process that is not simply running holds its lock, when it is on a processor. -/
theorem Shape.held_proc (h : Shape (.proc p) v) (hp : v.place ≠ .run) : .proc p ∈ v.held := by
  cases hpl : v.place with
  | run => exact absurd hpl hp
  | out => simp [(h.out hpl).2.1]
  | switching c' st done => simp [(h.switching hpl).2.1]
  | parked => simp [(h.parked hpl).2]
  | leaving st =>
    unfold Shape at h
    simp only [hpl] at h
    obtain ⟨q, ⟨⟩, -, -, hheld, -⟩ := h
    exact hheld
  | loading q done =>
    unfold Shape at h
    simp only [hpl] at h
    obtain ⟨_, ⟨⟩, -⟩ := h
  | away q =>
    unfold Shape at h
    simp only [hpl] at h
    obtain ⟨_, ⟨⟩, -⟩ := h

theorem Place.eq_of_pick {P : Place n κ} (h : P.pick = some p) :
    (∃ done, P = .loading p done) ∨ P = .away p := by
  cases P with
  | loading q done =>
    cases h
    exact .inl ⟨done, rfl⟩
  | away q =>
    cases h
    exact .inr rfl
  | _ => cases h

/-- A scheduler that has picked a process holds its lock, when it is on its processor. -/
theorem Shape.held_pick (h : Shape t v) (hp : v.place.pick = some p) : .proc p ∈ v.held := by
  rcases Place.eq_of_pick hp with ⟨done, hpl⟩ | hpl
  · simp [(h.loading hpl).2.1]
  · simp [(h.away hpl).2.1]

/-- Where a scheduler's process is: it is about to be switched to, or it runs, or it has just
switched back. -/
theorem Places.cases_of_pick (h : Places s V) (hp : (V (.sched c)).place.pick = some p) :
    s.cpuOf (.sched c) = some c ∨ s.cpuOf (.sched c) = none ∧ s.cpuOf (.proc p) = some c := by
  cases hc : s.cpuOf (.sched c) with
  | some c' =>
    obtain rfl := h.home hc
    exact .inl rfl
  | none =>
    refine .inr ⟨rfl, ?_⟩
    rcases Place.eq_of_pick hp with ⟨done, hpl⟩ | hpl
    · have := h.here (by rw [hpl]; rintro _ ⟨⟩)
      rw [hc] at this
      cases this
    · exact h.away hpl hc

end Shape

/-- **Who holds `p->lock`** and is in no switch of `p` sees `p` running, or finds that it is on no
processor and that no scheduler has picked it. -/
theorem Core.settled (h : Core s V) (ht : s.cpuOf t = some c) (hl : .proc p ∈ (V t).held)
    (hrun : (V t).place = .run) (hst : (s.proc p).state ≠ .running) :
    s.cpuOf (.proc p) = none ∧ ∀ c', (V (.sched c')).place.pick ≠ some p := by
  have hoff : s.cpuOf (.proc p) = none := by
    by_contra hon
    obtain ⟨c', hc'⟩ := Option.ne_none_iff_exists'.mp hon
    have hstate := h.states.on hon
    by_cases hpl : (V (.proc p)).place = .run
    · rw [hpl] at hstate
      exact hst hstate
    · -- the process holds its own lock
      have heq : t = .proc p := h.eq_of_held ht hc' hl ((h.shape _).held_proc hpl)
      rw [heq] at hrun
      exact hpl hrun
  refine ⟨hoff, fun c' hp => ?_⟩
  rcases h.places.cases_of_pick hp with hc' | ⟨-, hc'⟩
  · have heq : t = .sched c' := h.eq_of_held ht hc' hl ((h.shape _).held_pick hp)
    rw [heq] at hrun
    rw [hrun] at hp
    cases hp
  · rw [hoff] at hc'
    cases hc'

end Core

end Sched

end TrinityXv6
