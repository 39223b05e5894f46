import Mathlib.Data.Set.Function
import Mathlib.Logic.Function.Basic
import Mathlib.Logic.Relation

/-!
# Threads over a shared state

A program of one thread is a finite tree of *atomic actions* on a state shared by all threads.
Between two actions of a thread every other thread may run, so the tree records exactly where a
thread can be preempted and nothing else.

An action has three outcomes. It may complete, with a result, a new shared state and a list of
channels to wake. It may find its condition false, in which case the thread goes to sleep on a
channel and tries the same action again when it is woken. Or it may halt the thread for good.

## Sleeping

Sleeping is in two phases. A thread whose condition is false first *prepares*: it names its
channel and gives up the lock that made the test atomic. Only its next step puts it to sleep, and
a wakeup that falls between the two clears the channel and makes that step a no-op. A sleeping
thread may also be made runnable from outside without its channel being cleared; it then simply
tests its condition again.
-/

namespace Threads

open Function (update update_self update_of_ne update_eq_self)

/-- What an atomic action does: complete, wait for a wakeup on a channel, or halt its thread. -/
inductive Outcome (χ η σ β : Type) where
  | done (b : β) (s : σ) (wake : List χ)
  | sleep (c : χ)
  | halt (h : η)

variable {τ χ η σ ρ α β γ : Type} {ok : η → Prop}

/-- Carry the state of an outcome over. -/
def Outcome.map (f : σ → ρ) : Outcome χ η σ β → Outcome χ η ρ β
  | .done b s w => .done b (f s) w
  | .sleep c => .sleep c
  | .halt h => .halt h

/-- An action that completes does so with `P`, and one that halts has one of the reasons `ok`. -/
@[reducible] def Outcome.Ends (ok : η → Prop) (P : β → σ → Prop) : Outcome χ η σ β → Prop
  | .done b s _ => P b s
  | .sleep _ => True
  | .halt h => ok h

section Outcome

variable {f : σ → ρ} {o : Outcome χ η σ β}

theorem Outcome.map_eq_done {b : β} {r : ρ} {w : List χ} (h : o.map f = .done b r w) :
    ∃ s, o = .done b s w ∧ r = f s := by
  cases o with
  | done b' s w' =>
    cases h
    exact ⟨s, rfl, rfl⟩
  | sleep c => cases h
  | halt e => cases h

theorem Outcome.Ends.mono {P P' : β → σ → Prop} (h : o.Ends ok P)
    (hP : ∀ b s, P b s → P' b s) : o.Ends ok P' := by
  cases o with
  | done b s w => exact hP b s h
  | _ => exact h

theorem Outcome.map_eq_sleep {c : χ} (h : o.map f = .sleep c) : o = .sleep c := by
  cases o with
  | done b s w => cases h
  | sleep d =>
    cases h
    rfl
  | halt e => cases h

theorem Outcome.map_eq_halt {e : η} (h : o.map f = .halt e) : o = .halt e := by
  cases o with
  | done b s w => cases h
  | sleep c => cases h
  | halt e' =>
    cases h
    rfl

end Outcome

/-- A program of one thread. An action sees the name of the thread that runs it. -/
inductive Prog (τ χ η σ α : Type) : Type 1 where
  | ret (a : α)
  | act {β : Type} (f : τ → σ → Outcome χ η σ β) (k : β → Prog τ χ η σ α)

namespace Prog

/-- Sequential composition. -/
def bind : Prog τ χ η σ α → (α → Prog τ χ η σ β) → Prog τ χ η σ β
  | ret a, q => q a
  | act f k, q => act f fun b => (k b).bind q

instance : Monad (Prog τ χ η σ) where
  pure := ret
  bind := bind

/-- The program of a single action. -/
def atomic (f : τ → σ → Outcome χ η σ α) : Prog τ χ η σ α := act f ret

@[simp] theorem pure_def (a : α) : (pure a : Prog τ χ η σ α) = ret a := rfl

@[simp] theorem act_bind (f : τ → σ → Outcome χ η σ γ) (k : γ → Prog τ χ η σ α)
    (q : α → Prog τ χ η σ β) : act f k >>= q = act f fun b => k b >>= q := rfl

theorem bind_assoc (p : Prog τ χ η σ α) (q : α → Prog τ χ η σ β)
    (r : β → Prog τ χ η σ γ) : p >>= q >>= r = p >>= fun a => q a >>= r := by
  induction p with
  | ret a => rfl
  | act f k ih => exact congrArg (act f) (funext ih)

theorem bind_ret (p : Prog τ χ η σ α) : p >>= ret = p := by
  induction p with
  | ret a => rfl
  | act f k ih => exact congrArg (act f) (funext ih)

/-- Run the first `n` actions of a program with no other thread in between. The result is what
is left of the program, or `none` if one of the actions waits or halts. -/
def runFor (t : τ) : ℕ → Prog τ χ η σ α → σ → Option (Prog τ χ η σ α × σ)
  | 0, p, s => some (p, s)
  | _ + 1, ret a, s => some (ret a, s)
  | n + 1, act f k, s =>
    match f t s with
    | .done b s' _ => runFor t n (k b) s'
    | _ => none

/-- Run a program to its end with no other thread in between. -/
def solo (t : τ) : Prog τ χ η σ α → σ → Option (α × σ)
  | ret a, s => some (a, s)
  | act f k, s =>
    match f t s with
    | .done b s' _ => solo t (k b) s'
    | _ => none

@[simp] theorem solo_ret (t : τ) (a : α) (s : σ) :
    solo t (ret a : Prog τ χ η σ α) s = some (a, s) := rfl

variable {w : List χ} {a : α} {s s' : σ} {t : τ} {q : α → Prog τ χ η σ β}

theorem solo_act {f : τ → σ → Outcome χ η σ γ} {k : γ → Prog τ χ η σ α} {b : γ}
    (h : f t s = .done b s' w) : solo t (act f k) s = solo t (k b) s' := by
  simp [solo, h]

theorem solo_atomic {f : τ → σ → Outcome χ η σ α} (h : f t s = .done a s' w) :
    solo t (atomic f) s = some (a, s') :=
  solo_act h

theorem solo_bind (t : τ) (p : Prog τ χ η σ α) (q : α → Prog τ χ η σ β) (s : σ) :
    solo t (p >>= q) s = (solo t p s).bind fun r => solo t (q r.1) r.2 := by
  induction p generalizing s with
  | ret a => rfl
  | act f k ih =>
    rw [act_bind, solo, solo]
    cases f t s with
    | done b s' w => exact ih b s'
    | sleep c => rfl
    | halt h => rfl

theorem solo_bind_of_solo {p : Prog τ χ η σ α}
    (h : solo t p s = some (a, s')) : solo t (p >>= q) s = solo t (q a) s' := by
  rw [solo_bind, h]; rfl

/-- A program over part of the state, as one over the state. -/
def zoom (π : σ → ρ) (put : σ → ρ → σ) : Prog τ χ η ρ α → Prog τ χ η σ α
  | ret a => ret a
  | act f k => act (fun t s => (f t (π s)).map (put s)) fun b => (k b).zoom π put

theorem solo_zoom {π : σ → ρ} {put : σ → ρ → σ} (hπ : ∀ s r, π (put s r) = r)
    (hput : ∀ s r r', put (put s r) r' = put s r') (hself : ∀ s, put s (π s) = s)
    (p : Prog τ χ η ρ α) (t : τ) (s : σ) :
    (p.zoom π put).solo t s = (p.solo t (π s)).map fun x => (x.1, put s x.2) := by
  induction p generalizing s with
  | ret a =>
    show some (a, s) = some (a, put s (π s))
    rw [hself]
  | act f k ih =>
    cases hf : f t (π s) with
    | done b r w =>
      have hf' : (f t (π s)).map (put s) = .done b (put s r) w := by rw [hf]; rfl
      rw [zoom, solo_act hf', solo_act hf, ih, hπ]
      simp only [hput]
    | sleep c => simp [zoom, solo, hf, Outcome.map]
    | halt e => simp [zoom, solo, hf, Outcome.map]

theorem runFor_act {f : τ → σ → Outcome χ η σ γ} {k : γ → Prog τ χ η σ α} {b : γ} {n : ℕ}
    (h : f t s = .done b s' w) : runFor t (n + 1) (act f k) s = runFor t n (k b) s' := by
  simp [runFor, h]

/-- A program that runs to its end does so in finitely many actions. -/
theorem exists_runFor_of_solo {p : Prog τ χ η σ α}
    (h : solo t p s = some (a, s')) : ∃ n, runFor t n (p >>= q) s = some (q a, s') := by
  induction p generalizing s with
  | ret b =>
    obtain ⟨rfl, rfl⟩ : b = a ∧ s = s' := by simpa using h
    exact ⟨0, rfl⟩
  | act f k ih =>
    cases hf : f t s with
    | done b s₁ w =>
      rw [solo_act hf] at h
      obtain ⟨n, hn⟩ := ih b h
      exact ⟨n + 1, by rw [act_bind, runFor_act hf, hn]⟩
    | sleep c => simp [solo, hf] at h
    | halt e => simp [solo, hf] at h

end Prog

/-! ## Interleavings -/

/-- How a thread stands towards the scheduler. -/
inductive Mode (η : Type) where
  | running
  | prepared
  | asleep
  | halted (h : η)

/-- A thread: what it still has to run, its mode, and the channel it last prepared to sleep on
if no wakeup has cleared it. -/
structure Thread (τ χ η σ : Type) where
  code : Prog τ χ η σ Unit
  mode : Mode η
  chan : Option χ

/-- A thread that is between two calls. -/
def Thread.idle : Thread τ χ η σ := ⟨.ret (), .running, none⟩

/-- Wakeup, as seen by one thread. -/
def Thread.wake [DecidableEq χ] (w : List χ) (th : Thread τ χ η σ) : Thread τ χ η σ :=
  match th.chan with
  | none => th
  | some c =>
    if c ∈ w then
      { th with chan := none, mode := match th.mode with | .asleep => .running | m => m }
    else th

/-- Threads that call programs. A thread between two calls may start any call that `may` allows
it in the current state; `reset` restarts the machine, after which one thread runs `boot`. -/
structure System (τ χ η σ : Type) where
  Call : Type
  code : Call → Prog τ χ η σ Unit
  may : τ → Call → σ → Prop
  resets : Prop
  reset : σ → σ
  boot : Prog τ χ η σ Unit

/-- The shared state and all threads. -/
structure Config (τ χ η σ : Type) where
  shared : σ
  threads : τ → Thread τ χ η σ

/-- The action thread `t` is about to run halts it. -/
def HaltsWith (cfg : Config τ χ η σ) (t : τ) (h : η) : Prop :=
  ∃ (β : Type) (f : τ → σ → Outcome χ η σ β) (k : β → Prog τ χ η σ Unit) (ch : Option χ),
    cfg.threads t = ⟨.act f k, .running, ch⟩ ∧ f t cfg.shared = .halt h

variable {cfg : Config τ χ η σ} {e : η} {t : τ}

theorem haltsWith_iff {f : τ → σ → Outcome χ η σ β} {k : β → Prog τ χ η σ Unit} {ch : Option χ}
    (ht : cfg.threads t = ⟨.act f k, .running, ch⟩) :
    HaltsWith cfg t e ↔ f t cfg.shared = .halt e := by
  constructor
  · rintro ⟨γ, f', k', ch', ht', hf⟩
    cases ht.symm.trans ht'
    exact hf
  · intro hf
    exact ⟨β, f, k, ch, ht, hf⟩

/-- The reason for which the first action of a program halts, if it does. -/
def Prog.haltsAt (t : τ) : Prog τ χ η σ α → σ → Option η
  | .ret _, _ => none
  | .act f _, s => match f t s with
    | .halt e => some e
    | _ => none

theorem haltsWith_of_haltsAt (hm : (cfg.threads t).mode = .running)
    (h : (cfg.threads t).code.haltsAt t cfg.shared = some e) : HaltsWith cfg t e := by
  cases hc : (cfg.threads t).code with
  | ret a =>
    rw [hc] at h
    cases h
  | act f k =>
    have ht : cfg.threads t = ⟨.act f k, .running, (cfg.threads t).chan⟩ := by rw [← hc, ← hm]
    rw [hc, Prog.haltsAt] at h
    rw [haltsWith_iff ht]
    cases hf : f t cfg.shared with
    | halt e' =>
      rw [hf] at h
      exact congrArg Outcome.halt (Option.some.inj h)
    | done b s w =>
      rw [hf] at h
      cases h
    | sleep c =>
      rw [hf] at h
      cases h

section Step

variable [DecidableEq τ] [DecidableEq χ]

/-- One step of one thread, or a restart. -/
inductive Step (S : System τ χ η σ) : Config τ χ η σ → Config τ χ η σ → Prop
  | call {s th t ch} (c : S.Call) (ht : th t = ⟨.ret (), .running, ch⟩) (hm : S.may t c s) :
      Step S ⟨s, th⟩ ⟨s, update th t ⟨S.code c, .running, ch⟩⟩
  | done {s th t ch} {β : Type} {f : τ → σ → Outcome χ η σ β} {k b s' w}
      (ht : th t = ⟨.act f k, .running, ch⟩) (hf : f t s = .done b s' w) :
      Step S ⟨s, th⟩ ⟨s', fun u => (update th t ⟨k b, .running, ch⟩ u).wake w⟩
  | wait {s th t ch} {β : Type} {f : τ → σ → Outcome χ η σ β} {k c}
      (ht : th t = ⟨.act f k, .running, ch⟩) (hf : f t s = .sleep c) :
      Step S ⟨s, th⟩ ⟨s, update th t ⟨.act f k, .prepared, some c⟩⟩
  | halt {s th t ch} {β : Type} {f : τ → σ → Outcome χ η σ β} {k h}
      (ht : th t = ⟨.act f k, .running, ch⟩) (hf : f t s = .halt h) :
      Step S ⟨s, th⟩ ⟨s, update th t ⟨.act f k, .halted h, ch⟩⟩
  | sleep {s th t p c} (ht : th t = ⟨p, .prepared, some c⟩) :
      Step S ⟨s, th⟩ ⟨s, update th t ⟨p, .asleep, some c⟩⟩
  | nosleep {s th t p} (ht : th t = ⟨p, .prepared, none⟩) :
      Step S ⟨s, th⟩ ⟨s, update th t ⟨p, .running, none⟩⟩
  | kill {s th t p ch} (ht : th t = ⟨p, .asleep, ch⟩) :
      Step S ⟨s, th⟩ ⟨s, update th t ⟨p, .running, ch⟩⟩
  | reset {s th} (hr : S.resets) (t₀ : τ) :
      Step S ⟨s, th⟩ ⟨S.reset s, fun u => if u = t₀ then ⟨S.boot, .running, none⟩ else .idle⟩

/-- Reachable by any interleaving. -/
def Reachable (S : System τ χ η σ) : Config τ χ η σ → Config τ χ η σ → Prop :=
  Relation.ReflTransGen (Step S)

/-- The machine at power-on: thread `t₀` is about to run `boot`, every other thread is idle. -/
def System.powerOn (S : System τ χ η σ) (s : σ) (t₀ : τ) : Config τ χ η σ :=
  ⟨s, fun u => if u = t₀ then ⟨S.boot, .running, none⟩ else .idle⟩

end Step

section Wake

variable [DecidableEq χ]

@[simp] theorem Thread.wake_code (w : List χ) (th : Thread τ χ η σ) :
    (th.wake w).code = th.code := by
  unfold Thread.wake
  split
  · rfl
  · split <;> rfl

/-- A wakeup changes the mode of a sleeping thread only. -/
theorem Thread.wake_mode {w : List χ} {th : Thread τ χ η σ} {m : Mode η} (h : th.mode = m)
    (hm : m ≠ .asleep) : (th.wake w).mode = m := by
  unfold Thread.wake
  split
  · exact h
  · split
    · cases m with
      | asleep => exact absurd rfl hm
      | _ => simp [h]
    · exact h

theorem Thread.wake_mode_running {w : List χ} {th : Thread τ χ η σ} (h : th.mode = .running) :
    (th.wake w).mode = .running :=
  wake_mode h nofun

theorem Thread.wake_cases (w : List χ) (th : Thread τ χ η σ) :
    (∃ c ∈ w, th.chan = some c ∧ (th.wake w).chan = none) ∨
      ((∀ c ∈ w, th.chan ≠ some c) ∧ th.wake w = th) := by
  unfold Thread.wake
  cases hc : th.chan with
  | none => exact .inr ⟨by rintro _ - ⟨⟩, rfl⟩
  | some c =>
    by_cases hw : c ∈ w
    · exact .inl ⟨c, hw, rfl, by simp [hw]⟩
    · refine .inr ⟨fun d hd hcd => hw ?_, by simp [hw]⟩
      rwa [Option.some.inj hcd]

end Wake

/-! ## Invariants with a ghost part

The shared state need not determine what a thread is in the middle of. The invariant therefore
relates it to a ghost state `Γ`, of which thread `t` sees `view G t`. What a thread knows between
two of its actions is its own view, and no other thread may change it. -/

/-- An invariant, the view each thread has of the ghost state, and when a thread is allowed to
halt or to wait. -/
structure Logic (τ χ η σ Γ γ : Type) where
  inv : σ → Γ → Prop
  view : Γ → τ → γ
  mayHalt : τ → σ → Γ → η → Prop
  mayWait : τ → σ → Γ → χ → Prop

variable {Γ : Type}

/-- From any state that satisfies the invariant and in which thread `t` has view `g`, running
`p` keeps the invariant at every action, changes no other thread's view, halts and waits only
where that is allowed, and ends with `Q`. -/
def Safe (L : Logic τ χ η σ Γ γ) (t : τ) (Q : α → γ → Prop) : Prog τ χ η σ α → γ → Prop
  | .ret a, g => Q a g
  | .act f k, g => ∀ s G, L.inv s G → L.view G t = g →
      (∀ b s' w, f t s = .done b s' w → ∃ G', L.inv s' G' ∧
        (∀ u, u ≠ t → L.view G' u = L.view G u) ∧ Safe L t Q (k b) (L.view G' t)) ∧
      (∀ c, f t s = .sleep c → L.mayWait t s G c) ∧
      (∀ h, f t s = .halt h → L.mayHalt t s G h)

variable {L : Logic τ χ η σ Γ γ} {Q : α → γ → Prop} {p : Prog τ χ η σ α} {q : α → Prog τ χ η σ β}
  {s : σ} {idle : γ → Prop}

/-- Obligations compose: the view a program ends with is the one its successor starts from. -/
theorem Safe.bind {R : β → γ → Prop} {g : γ} (h : Safe L t Q p g)
    (hq : ∀ a g, Q a g → Safe L t R (q a) g) : Safe L t R (p >>= q) g := by
  induction p generalizing g with
  | ret a => exact hq a g h
  | act f k ih =>
    intro s G hI hv
    obtain ⟨hd, hrest⟩ := h s G hI hv
    refine ⟨fun b s' w hb => ?_, hrest⟩
    obtain ⟨G', hI', hu, hk⟩ := hd b s' w hb
    exact ⟨G', hI', hu, ih b hk⟩

theorem Safe.mono {R : α → γ → Prop} {g : γ} (h : Safe L t Q p g) (hQR : ∀ a g, Q a g → R a g) :
    Safe L t R p g := by
  rw [← p.bind_ret]
  exact h.bind hQR

section Known

variable {R : β → γ → Prop} {g w : γ}

/-- After a program that ends with a known view. -/
theorem Safe.seq (h : Safe L t (fun _ v => v = w) p g) (hq : ∀ a, Safe L t R (q a) w) :
    Safe L t R (p >>= q) g := by
  refine h.bind ?_
  rintro a _ rfl
  exact hq a

/-- After a program that ends with a known result and a known view. -/
theorem Safe.seq_eq {b : α} (h : Safe L t (fun a v => a = b ∧ v = w) p g)
    (hq : Safe L t R (q b) w) : Safe L t R (p >>= q) g := by
  refine h.bind ?_
  rintro _ _ ⟨rfl, rfl⟩
  exact hq

/-- After a program that ends with a view of a known form. -/
theorem Safe.seq_exists {ι : Type} {f : ι → γ} (h : Safe L t (fun _ v => ∃ x, v = f x) p g)
    (hq : ∀ a x, Safe L t R (q a) (f x)) : Safe L t R (p >>= q) g := by
  refine h.bind ?_
  rintro a _ ⟨x, rfl⟩
  exact hq a x

end Known

/-! ### Views that change one at a time -/

section Views

variable [DecidableEq τ] {G : τ → γ} {t : τ} {g : γ}

/-- Views agree in what a change of one of them does not touch. -/
theorem view_update (f : γ → β) (h : f g = f (G t)) (u : τ) : f (update G t g u) = f (G u) := by
  by_cases hu : u = t
  · subst hu
    rw [update_self, h]
  · rw [update_of_ne hu]

/-- A view after a change is the new one, or another one as it was. -/
theorem update_cases {f : γ → β} {b : β} {u : τ} (h : f (update G t g u) = b) :
    u = t ∧ f g = b ∨ u ≠ t ∧ f (G u) = b := by
  rcases eq_or_ne u t with rfl | hu
  · rw [update_self] at h
    exact .inl ⟨rfl, h⟩
  · rw [update_of_ne hu] at h
    exact .inr ⟨hu, h⟩

theorem views_update (f : γ → β) (G : τ → γ) (t : τ) (g : γ) :
    (fun u => f (update G t g u)) = update (fun u => f (G u)) t (f g) :=
  Function.comp_update f G t g

theorem views_update_same (f : γ → β) (h : f g = f (G t)) :
    (fun u => f (update G t g u)) = fun u => f (G u) := funext (view_update f h)

end Views

/-- The invariant of configurations: a ghost state for the shared state, in which every thread
that has not halted is safe to go on. -/
def Good (L : Logic τ χ η σ Γ γ) (idle : γ → Prop) (cfg : Config τ χ η σ) : Prop :=
  ∃ G, L.inv cfg.shared G ∧ ∀ u, (∃ h, (cfg.threads u).mode = .halted h) ∨
    Safe L u (fun _ g => idle g) (cfg.threads u).code (L.view G u)

/-- A step that leaves the shared state and the code of every thread alone keeps `Good`, as long
as it revives no halted thread. -/
theorem Good.of_code_eq {th th' : τ → Thread τ χ η σ}
    (h : Good L idle ⟨s, th⟩) (hcode : ∀ u, (th' u).code = (th u).code)
    (hmode : ∀ u e, (th u).mode = .halted e → (th' u).mode = .halted e) : Good L idle ⟨s, th'⟩ := by
  obtain ⟨G, hI, hth⟩ := h
  refine ⟨G, hI, fun u => ?_⟩
  rcases hth u with ⟨e, he⟩ | hs
  · exact .inl ⟨e, hmode u e he⟩
  · exact .inr (by simpa only [hcode u] using hs)

/-- A thread halts only where the logic allows it. -/
theorem Good.mayHalt (hg : Good L idle cfg) (h : HaltsWith cfg t e) :
    ∃ G, L.inv cfg.shared G ∧ L.mayHalt t cfg.shared G e := by
  obtain ⟨G, hI, hth⟩ := hg
  obtain ⟨β, f, k, ch, ht, hf⟩ := h
  refine ⟨G, hI, ?_⟩
  rcases hth t with ⟨e', he⟩ | hsafe
  · simp [ht] at he
  · rw [ht] at hsafe
    exact (hsafe cfg.shared G hI rfl).2.2 e hf

section Sound

variable [DecidableEq τ] [DecidableEq χ]

/-- Every call an idle thread may make is safe, and so is the program run after a restart. -/
structure Sound (S : System τ χ η σ) (L : Logic τ χ η σ Γ γ) (idle : γ → Prop) : Prop where
  call : ∀ {t c s G}, L.inv s G → idle (L.view G t) → S.may t c s →
    ∃ G', L.inv s G' ∧ (∀ u, u ≠ t → L.view G' u = L.view G u) ∧
      Safe L t (fun _ g => idle g) (S.code c) (L.view G' t)
  reset : ∀ {s G} (t₀ : τ), S.resets → L.inv s G →
    ∃ G', L.inv (S.reset s) G' ∧ (∀ u, u ≠ t₀ → idle (L.view G' u)) ∧
      Safe L t₀ (fun _ g => idle g) S.boot (L.view G' t₀)

variable {S : System τ χ η σ} {idle : γ → Prop} {cfg' : Config τ χ η σ}

theorem Sound.step (h : Sound S L idle) (hg : Good L idle cfg) (hs : Step S cfg cfg') :
    Good L idle cfg' := by
  have update_only : ∀ {s : σ} {th : τ → Thread τ χ η σ} {t : τ} {old new : Thread τ χ η σ},
      Good L idle ⟨s, th⟩ → th t = old → new.code = old.code →
      (∀ e, old.mode = .halted e → new.mode = .halted e) →
      Good L idle ⟨s, update th t new⟩ := by
    intro s th t old new hgood ht hc hm
    refine hgood.of_code_eq (fun u => ?_) (fun u e he => ?_)
    · by_cases hu : u = t
      · subst hu; simpa [ht] using hc
      · simp [hu]
    · by_cases hu : u = t
      · subst hu; simpa using hm e (by rw [← ht]; exact he)
      · simpa [hu] using he
  cases hs with
  | @call s th t ch c ht hm =>
    obtain ⟨G, hI, hth⟩ := hg
    have hidle : idle (L.view G t) := by
      rcases hth t with ⟨e, he⟩ | hsafe
      · simp [ht] at he
      · simpa [ht, Safe] using hsafe
    obtain ⟨G', hI', hu, hsafe⟩ := h.call hI hidle hm
    refine ⟨G', hI', fun u => ?_⟩
    by_cases hut : u = t
    · subst hut; exact .inr (by simpa using hsafe)
    · simpa [update_of_ne hut, hu u hut] using hth u
  | @done s th t ch β f k b s' w ht hf =>
    obtain ⟨G, hI, hth⟩ := hg
    have hsafe : Safe L t (fun _ g => idle g) (.act f k) (L.view G t) := by
      rcases hth t with ⟨e, he⟩ | hsafe
      · simp [ht] at he
      · simpa [ht] using hsafe
    obtain ⟨G', hI', hu, hk⟩ := (hsafe s G hI rfl).1 b s' w hf
    refine ⟨G', hI', fun u => ?_⟩
    by_cases hut : u = t
    · subst hut; exact .inr (by simpa using hk)
    · rcases hth u with ⟨e, he⟩ | hs
      · exact .inl ⟨e, Thread.wake_mode (by rw [update_of_ne hut]; exact he) nofun⟩
      · exact .inr (by simpa [update_of_ne hut, hu u hut] using hs)
  | wait ht hf => exact update_only hg ht rfl (by simp)
  | @halt s th t ch β f k e ht hf =>
    obtain ⟨G, hI, hth⟩ := hg
    refine ⟨G, hI, fun u => ?_⟩
    by_cases hut : u = t
    · subst hut; exact .inl ⟨e, by simp⟩
    · simpa [update_of_ne hut] using hth u
  | sleep ht => exact update_only hg ht rfl (by simp)
  | nosleep ht => exact update_only hg ht rfl (by simp)
  | kill ht => exact update_only hg ht rfl (by simp)
  | @reset s th hr t₀ =>
    obtain ⟨G, hI, hth⟩ := hg
    obtain ⟨G', hI', hidle, hboot⟩ := h.reset t₀ hr hI
    refine ⟨G', hI', fun u => ?_⟩
    by_cases hu : u = t₀
    · subst hu; exact .inr (by simpa using hboot)
    · exact .inr (by simpa [hu, Thread.idle, Safe] using hidle u hu)

/-- **The invariant holds in every reachable configuration.** -/
theorem Sound.reachable (h : Sound S L idle) (hg : Good L idle cfg) (hr : Reachable S cfg cfg') :
    Good L idle cfg' := by
  induction hr with
  | refl => exact hg
  | tail _ hs ih => exact h.step ih hs

end Sound

/-! ## Views that are the ghost state

Where the ghost state is nothing but one view for each thread, and where threads may halt and wait
freely, the obligation of an action is about the state and the acting thread's view alone. -/

/-- The logic of an invariant over views in which threads may wait freely, and halt for the reasons
`ok` only. -/
def guardedLogic (χ : Type) (ok : η → Prop) (inv : σ → (τ → γ) → Prop) :
    Logic τ χ η σ (τ → γ) γ where
  inv := inv
  view G t := G t
  mayHalt _ _ _ := ok
  mayWait _ _ _ _ := True

/-- The logic of an invariant over the shared state and one view for each thread. -/
def localLogic (χ η : Type) (inv : σ → (τ → γ) → Prop) : Logic τ χ η σ (τ → γ) γ where
  inv := inv
  view G t := G t
  mayHalt _ _ _ _ := True
  mayWait _ _ _ _ := True

/-- Every action of a program is one of these changes of the shared state. -/
def Prog.Within (R : σ → σ → Prop) : Prog τ χ η σ α → Prop
  | .ret _ => True
  | .act f k => (∀ t s b s' w, f t s = .done b s' w → R s s') ∧ ∀ b, Within R (k b)

theorem Prog.Within.bind {R : σ → σ → Prop} (hp : p.Within R) (hq : ∀ a, (q a).Within R) :
    (p >>= q).Within R := by
  induction p with
  | ret a => exact hq a
  | act f k ih => exact ⟨hp.1, fun b => ih b (hp.2 b)⟩

theorem Prog.Within.mono {R R' : σ → σ → Prop} (hp : p.Within R) (hR : ∀ s s', R s s' → R' s s') :
    p.Within R' := by
  induction p with
  | ret a => trivial
  | act f k ih => exact ⟨fun t s b s' w hf => hR _ _ (hp.1 t s b s' w hf), fun b => ih b (hp.2 b)⟩

section Local

variable [DecidableEq τ] {inv : σ → (τ → γ) → Prop} {f : τ → σ → Outcome χ η σ β}
  {k : β → Prog τ χ η σ α} {g : γ}

theorem safe_act_guarded (h : ∀ s G, inv s G → G t = g → (f t s).Ends ok fun b s' =>
      ∃ g', inv s' (update G t g') ∧ Safe (guardedLogic χ ok inv) t Q (k b) g') :
    Safe (guardedLogic χ ok inv) t Q (.act f k) g := by
  intro s G hI hv
  have hends := h s G hI hv
  refine ⟨fun b s' w hf => ?_, fun _ _ => trivial, fun e hf => ?_⟩
  · rw [hf] at hends
    obtain ⟨g', hI', hk⟩ := hends
    refine ⟨update G t g', hI', fun u hu => update_of_ne hu _ _, ?_⟩
    show Safe _ t Q (k b) (update G t g' t)
    rwa [update_self]
  · rw [hf] at hends
    exact hends

theorem safe_act (h : ∀ s G, inv s G → G t = g → ∀ b s' w, f t s = .done b s' w →
      ∃ g', inv s' (update G t g') ∧ Safe (localLogic χ η inv) t Q (k b) g') :
    Safe (localLogic χ η inv) t Q (.act f k) g := by
  refine safe_act_guarded fun s G hI hG => ?_
  cases hf : f t s with
  | done b s' w => exact h s G hI hG b s' w hf
  | _ => trivial

/-- A program whose actions keep the invariant under every view of it. -/
theorem Prog.Within.safe {R : σ → σ → Prop} (hR : ∀ {s s' G}, inv s G → R s s' → inv s' G)
    (hp : p.Within R) (g : γ) : Safe (localLogic χ η inv) t (fun _ g' => g' = g) p g := by
  induction p with
  | ret a => rfl
  | act f k ih =>
    refine safe_act fun s G hI hG b s' w hf => ⟨g, ?_, ih b (hp.2 b)⟩
    rw [← hG, update_eq_self]
    exact hR hI (hp.1 t s b s' w hf)

variable {S : System τ χ η σ} {idle : γ → Prop} {t₀ : τ} {G₀ : τ → γ}

/-- The machine at power-on, if nothing is run then. -/
theorem good_powerOn [DecidableEq χ] {G : Γ}
    (hboot : S.boot = .ret ()) (hI : L.inv s G) (hidle : ∀ u, idle (L.view G u)) :
    Good L idle (S.powerOn s t₀) := by
  refine ⟨G, hI, fun u => .inr ?_⟩
  have hcode : ((S.powerOn s t₀).threads u).code = .ret () := by
    by_cases hu : u = t₀
    · simp [System.powerOn, hu, hboot]
    · simp [System.powerOn, hu, Thread.idle]
  rw [hcode]
  exact hidle u

/-- **Threads halt for these reasons only**, if every call is safe and as long as the machine does
not restart. -/
theorem guarded_of_reachable [DecidableEq χ] (hres : ¬ S.resets)
    (hcall : ∀ t c s, S.may t c s → ∀ g, idle g →
      Safe (guardedLogic χ ok inv) t (fun _ g' => idle g') (S.code c) g) {s₀ : σ}
    (hinv : inv s₀ G₀) (hidle : ∀ u, idle (G₀ u)) (hboot : S.boot = .ret ())
    (hr : Reachable S (S.powerOn s₀ t₀) cfg) :
    (∃ G, inv cfg.shared G) ∧ ∀ t e, HaltsWith cfg t e → ok e := by
  have hsound : Sound S (guardedLogic χ ok inv) idle :=
    { call := fun {t c s G} hI hid hmay => ⟨G, hI, fun _ _ => rfl, hcall t c s hmay _ hid⟩
      reset := fun _ h _ => absurd h hres }
  have hgood : Good (guardedLogic χ ok inv) idle (S.powerOn s₀ t₀) :=
    good_powerOn hboot hinv hidle
  have hgood' := hsound.reachable hgood hr
  refine ⟨?_, fun t e hhalt => ?_⟩
  · obtain ⟨G, hI, -⟩ := hgood'
    exact ⟨G, hI⟩
  · obtain ⟨G, -, hok⟩ := hgood'.mayHalt hhalt
    exact hok

/-- An invariant over views holds in every reachable configuration if every call keeps it, as
long as the machine does not restart. -/
theorem inv_of_reachable [DecidableEq χ] (hres : ¬ S.resets)
    (hcall : ∀ t c s, S.may t c s → ∀ g, idle g →
      Safe (localLogic χ η inv) t (fun _ g' => idle g') (S.code c) g) {s₀ : σ}
    (hinv : inv s₀ G₀) (hidle : ∀ u, idle (G₀ u)) (hboot : S.boot = .ret ())
    (hr : Reachable S (S.powerOn s₀ t₀) cfg) : ∃ G, inv cfg.shared G :=
  (guarded_of_reachable hres hcall hinv hidle hboot hr).1

end Local

/-! ## Waiting for a wakeup

A thread that is asleep on a channel is there because the condition of its action was false. It is
so still, as long as every action either wakes the channel or leaves false conditions false. An
action may also do neither, if no other thread is in the middle of a call. -/

/-- The first action of a program waits on `c`. -/
def Prog.WaitsOn (t : τ) (c : χ) : Prog τ χ η σ α → σ → Prop
  | .ret _, _ => False
  | .act f _, s => f t s = .sleep c

/-- No action of a program waits on `c`. -/
def Prog.Shuns (c : χ) : Prog τ χ η σ α → Prop
  | .ret _ => True
  | .act f k => (∀ t s, f t s ≠ .sleep c) ∧ ∀ b, Shuns c (k b)

theorem Prog.Shuns.bind {c : χ} (hp : p.Shuns c) (hq : ∀ a, (q a).Shuns c) : (p >>= q).Shuns c := by
  induction p with
  | ret a => exact hq a
  | act f k ih => exact ⟨hp.1, fun b => ih b (hp.2 b)⟩

/-- Every action of a program keeps the invariant. It wakes `c`, or it is one of the changes `R`,
which leave every action that waits on `c` waiting, or all other threads are out of their calls. -/
def Wakes (inv : σ → (τ → γ) → Prop) [DecidableEq τ] (out : γ → Prop) (c : χ) (R : σ → σ → Prop)
    (t : τ) (Q : α → γ → Prop) : Prog τ χ η σ α → γ → Prop
  | .ret a, g => Q a g
  | .act f k, g => ¬ out g ∧ (∀ s s', R s s' → f t s = .sleep c → f t s' = .sleep c) ∧
      ∀ s G, inv s G → G t = g → ∀ b s' w, f t s = .done b s' w →
        (c ∈ w ∨ R s s' ∨ ∀ u, u ≠ t → out (G u)) ∧
          ∃ g', inv s' (update G t g') ∧ Wakes inv out c R t Q (k b) g'

section Waiting

variable [DecidableEq τ] {inv : σ → (τ → γ) → Prop} {out idle : γ → Prop} {c : χ}
  {R R' : σ → σ → Prop}

variable {g : γ}

theorem Wakes.bind {Q' : β → γ → Prop}
    (h : Wakes inv out c R t Q p g) (hq : ∀ a g, Q a g → Wakes inv out c R t Q' (q a) g) :
    Wakes inv out c R t Q' (p >>= q) g := by
  induction p generalizing g with
  | ret a => exact hq a g h
  | act f k ih =>
    obtain ⟨hg, hstable, hstep⟩ := h
    refine ⟨hg, hstable, fun s G hI hv b s' w hf => ?_⟩
    obtain ⟨hw, g', hI', hk⟩ := hstep s G hI hv b s' w hf
    exact ⟨hw, g', hI', ih b hk⟩

theorem Wakes.mono {Q' : α → γ → Prop} (h : Wakes inv out c R t Q p g)
    (hQ : ∀ a g, Q a g → Q' a g) : Wakes inv out c R t Q' p g := by
  rw [← p.bind_ret]
  exact h.bind hQ

/-- A program that does not wait itself, and that makes changes under which nobody's wait is
over. -/
theorem Prog.Within.wakes (hp : p.Within R') (hs : p.Shuns c) (hg : ¬ out g)
    (hinv : ∀ {s s' G}, inv s G → R' s s' → inv s' G)
    (hR : ∀ {s s' G}, inv s G → G t = g → R' s s' → R s s' ∨ ∀ u, u ≠ t → out (G u)) :
    Wakes inv out c R t (fun _ g' => g' = g) p g := by
  induction p with
  | ret a => rfl
  | act f k ih =>
    refine ⟨hg, fun s s' _ hf => absurd hf (hs.1 t s), fun s G hI hG b s' w hf => ?_⟩
    have hstep := hp.1 t s b s' w hf
    refine ⟨.inr (hR hI hG hstep), g, ?_, ih b (hp.2 b) (hs.2 b)⟩
    rw [← hG, update_eq_self]
    exact hinv hI hstep

/-- The invariant of configurations: every thread that has not halted goes on waking the waiters,
and waits itself if it sleeps. -/
def Attended (inv : σ → (τ → γ) → Prop) (out idle : γ → Prop) (c : χ) (R : σ → σ → Prop)
    (cfg : Config τ χ η σ) : Prop :=
  ∃ G, inv cfg.shared G ∧ ∀ u, (∃ h, (cfg.threads u).mode = .halted h) ∨
    Wakes inv out c R u (fun _ => idle) (cfg.threads u).code (G u) ∧
      ((cfg.threads u).mode = .running ∨
        ((cfg.threads u).chan = some c → (cfg.threads u).code.WaitsOn u c cfg.shared))

/-- A sleeping thread, after another thread's action. -/
theorem Prog.WaitsOn.step {p : Prog τ χ η σ Unit} {u : τ} {s s' : σ} {G : τ → γ}
    (hp : Wakes inv out c R u (fun _ => idle) p (G u)) (hut : u ≠ t)
    (hR : R s s' ∨ ∀ v, v ≠ t → out (G v)) (h : p.WaitsOn u c s) : p.WaitsOn u c s' := by
  cases p with
  | ret a => exact h.elim
  | act f k =>
    obtain ⟨hg, hstable, -⟩ := hp
    rcases hR with hR | hout
    · exact hstable s s' hR h
    · exact absurd (hout u hut) hg

variable {S : System τ χ η σ}

/-- The machine at power-on. -/
theorem attended_powerOn {t₀ : τ} {G : τ → γ} (hI : inv s G) (hout : ∀ u, u ≠ t₀ → idle (G u))
    (hboot : Wakes inv out c R t₀ (fun _ => idle) S.boot (G t₀)) :
    Attended inv out idle c R (S.powerOn s t₀) := by
  refine ⟨G, hI, fun u => .inr ?_⟩
  by_cases hu : u = t₀
  · subst hu
    simpa [System.powerOn] using hboot
  · simpa [System.powerOn, hu, Thread.idle, Wakes] using hout u hu

/-- **A thread that is asleep on the channel waits.** -/
theorem Attended.waitsOn (h : Attended inv out idle c R cfg) (hm : (cfg.threads t).mode = .asleep)
    (hc : (cfg.threads t).chan = some c) : (cfg.threads t).code.WaitsOn t c cfg.shared := by
  obtain ⟨G, -, hth⟩ := h
  rcases hth t with ⟨e, he⟩ | ⟨-, hrun | hw⟩
  · rw [hm] at he
    cases he
  · rw [hm] at hrun
    cases hrun
  · exact hw hc

variable [DecidableEq χ] {cfg' : Config τ χ η σ}

/-- Every call wakes the waiters, and so does the program run after a restart. -/
structure Attentive (S : System τ χ η σ) (inv : σ → (τ → γ) → Prop)
    (out idle : γ → Prop) (c : χ) (R : σ → σ → Prop) : Prop where
  call : ∀ {t s G} (x : S.Call), inv s G → idle (G t) → S.may t x s →
    ∃ g, inv s (update G t g) ∧ Wakes inv out c R t (fun _ => idle) (S.code x) g
  reset : ∀ {s G} (t₀ : τ), S.resets → inv s G → ∃ G', inv (S.reset s) G' ∧
    (∀ u, u ≠ t₀ → idle (G' u)) ∧ Wakes inv out c R t₀ (fun _ => idle) S.boot (G' t₀)

theorem Attentive.step (h : Attentive S inv out idle c R)
    (hg : Attended inv out idle c R cfg) (hs : Step S cfg cfg') :
    Attended inv out idle c R cfg' := by
  -- steps that only change how one thread stands
  have hstand : ∀ {s : σ} {th : τ → Thread τ χ η σ} {t : τ} {old new : Thread τ χ η σ},
      Attended inv out idle c R ⟨s, th⟩ → th t = old → new.code = old.code →
      (∀ e, old.mode = .halted e → new.mode = .halted e) →
      ((∃ e, new.mode = .halted e) ∨ new.mode = .running ∨
        (new.chan = some c → new.code.WaitsOn t c s)) →
      Attended inv out idle c R ⟨s, update th t new⟩ := by
    rintro s th t old new ⟨G, hI, hth⟩ ht hc hm hnew
    refine ⟨G, hI, fun u => ?_⟩
    by_cases hu : u = t
    · subst hu
      simp only [update_self]
      rcases hth u with ⟨e, he⟩ | ⟨hw, -⟩
      · exact .inl ⟨e, hm e (ht ▸ he)⟩
      · rcases hnew with hnew | hnew
        · exact .inl hnew
        · refine .inr ⟨?_, hnew⟩
          rw [hc, ← ht]
          exact hw
    · simp only [update_of_ne hu]
      exact hth u
  -- what a thread that stands somewhere is waiting for
  have hwaits : ∀ {s : σ} {th : τ → Thread τ χ η σ} {t : τ}, Attended inv out idle c R ⟨s, th⟩ →
      (∀ e, (th t).mode ≠ .halted e) → (th t).mode ≠ .running →
      (th t).chan = some c → (th t).code.WaitsOn t c s := by
    rintro s th t ⟨G, -, hth⟩ hh hr
    rcases hth t with ⟨e, he⟩ | ⟨-, hrun | hw⟩
    · exact absurd he (hh e)
    · exact absurd hrun hr
    · exact hw
  cases hs with
  | @call s th t ch x ht hm =>
    obtain ⟨G, hI, hth⟩ := hg
    have hidle : idle (G t) := by
      rcases hth t with ⟨e, he⟩ | ⟨hw, -⟩
      · simp [ht] at he
      · simpa [ht, Wakes] using hw
    obtain ⟨g, hI', hw⟩ := h.call x hI hidle hm
    refine ⟨update G t g, hI', fun u => ?_⟩
    by_cases hu : u = t
    · subst hu
      exact .inr (by simpa using hw)
    · simpa [update_of_ne hu] using hth u
  | @done s th t ch β f k b s' w ht hf =>
    obtain ⟨G, hI, hth⟩ := hg
    have hact : Wakes inv out c R t (fun _ => idle) (.act f k) (G t) := by
      rcases hth t with ⟨e, he⟩ | ⟨hw, -⟩
      · simp [ht] at he
      · simpa [ht] using hw
    obtain ⟨hwake, g', hI', hk⟩ := hact.2.2 s G hI rfl b s' w hf
    refine ⟨update G t g', hI', fun u => ?_⟩
    by_cases hu : u = t
    · subst hu
      refine .inr ⟨by simpa using hk, .inl (Thread.wake_mode_running (by simp))⟩
    · simp only [update_of_ne hu]
      rcases hth u with ⟨e, he⟩ | ⟨hw, hstand⟩
      · exact .inl ⟨e, Thread.wake_mode he nofun⟩
      · refine .inr ⟨by simpa using hw, ?_⟩
        rcases hstand with hrun | hwait
        · exact .inl (Thread.wake_mode_running hrun)
        · refine .inr fun hchan => ?_
          rw [Thread.wake_code]
          -- a thread that is still on its channel was not woken
          rcases Thread.wake_cases w (th u) with ⟨d, -, -, hnone⟩ | ⟨hne, heq⟩
          · rw [hnone] at hchan
            cases hchan
          · rw [heq] at hchan
            have hcw : c ∉ w := fun hc => hne c hc hchan
            exact (hwait hchan).step hw hu (hwake.resolve_left hcw)
  | wait ht hf => exact hstand hg ht rfl (by simp) (.inr (.inr fun hc => by cases hc; exact hf))
  | halt ht hf => exact hstand hg ht rfl (by simp) (.inl ⟨_, rfl⟩)
  | @sleep s th t p d ht =>
    refine hstand hg ht rfl (by simp) (.inr (.inr fun hc => ?_))
    have := hwaits hg (t := t) (by simp [ht]) (by simp [ht]) (by simpa [ht] using hc)
    simpa [ht] using this
  | nosleep ht => exact hstand hg ht rfl (by simp) (.inr (.inl rfl))
  | kill ht => exact hstand hg ht rfl (by simp) (.inr (.inl rfl))
  | @reset s th hr t₀ =>
    obtain ⟨G, hI, -⟩ := hg
    obtain ⟨G', hI', hout, hboot⟩ := h.reset t₀ hr hI
    exact attended_powerOn hI' hout hboot

theorem Attentive.reachable (h : Attentive S inv out idle c R)
    (hg : Attended inv out idle c R cfg) (hr : Reachable S cfg cfg') :
    Attended inv out idle c R cfg' := by
  induction hr with
  | refl => exact hg
  | tail _ hs ih => exact h.step ih hs

end Waiting

/-! ## A thread on its own -/

/-- A safe program that may neither halt nor wait runs to its end when no other thread runs. -/
theorem Safe.exists_solo (hhalt : ∀ s G e, L.inv s G → ¬ L.mayHalt t s G e)
    (hwait : ∀ s G c, L.inv s G → ¬ L.mayWait t s G c) {G : Γ} (hI : L.inv s G)
    (h : Safe L t Q p (L.view G t)) :
    ∃ a s' G', p.solo t s = some (a, s') ∧ L.inv s' G' ∧ Q a (L.view G' t) ∧
      ∀ u, u ≠ t → L.view G' u = L.view G u := by
  induction p generalizing s G with
  | ret a => exact ⟨a, s, G, rfl, hI, h, fun _ _ => rfl⟩
  | act f k ih =>
    obtain ⟨hd, hw, hh⟩ := h s G hI rfl
    cases hf : f t s with
    | done b s₁ w =>
      obtain ⟨G₁, hI₁, hu₁, hk⟩ := hd b s₁ w hf
      obtain ⟨a, s', G', hsolo, hI', hQ, hu⟩ := ih b hI₁ hk
      refine ⟨a, s', G', by rw [Prog.solo_act hf, hsolo], hI', hQ, fun u hut => ?_⟩
      rw [hu u hut, hu₁ u hut]
    | sleep c => exact absurd (hw c hf) (hwait s G c hI)
    | halt e => exact absurd (hh e hf) (hhalt s G e hI)

section Solo

/-- Every thread other than `t` is between two calls. -/
def OthersIdle (t : τ) (th : τ → Thread τ χ η σ) : Prop :=
  ∀ u, u ≠ t → (th u).code = .ret () ∧ (th u).mode = .running

/-- Every thread is between two calls. -/
def AllIdle (th : τ → Thread τ χ η σ) : Prop :=
  ∀ u, (th u).code = .ret () ∧ (th u).mode = .running

variable {p : Prog τ χ η σ Unit} {th : τ → Thread τ χ η σ}

theorem OthersIdle.all (ho : OthersIdle t th)
    (ht : (th t).code = .ret () ∧ (th t).mode = .running) :
    AllIdle th := by
  intro u
  by_cases hu : u = t
  · rwa [hu]
  · exact ho u hu

variable [DecidableEq τ] [DecidableEq χ] {S : System τ χ η σ}

variable {cs : List (τ × S.Call)} {s s' : σ} {t₀ : τ} {n : ℕ}

/-- The first `n` actions of the program of thread `t`, taken one after the other, are steps of
the system; idle threads stay idle. -/
theorem reachable_runFor {p' : Prog τ χ η σ Unit} (h : p.runFor t n s = some (p', s'))
    (hcode : (th t).code = p) (hmode : (th t).mode = .running) (ho : OthersIdle t th) :
    ∃ th', Reachable S ⟨s, th⟩ ⟨s', th'⟩ ∧ (th' t).code = p' ∧ (th' t).mode = .running ∧
      OthersIdle t th' := by
  induction n generalizing p s th with
  | zero =>
    obtain ⟨rfl, rfl⟩ : p = p' ∧ s = s' := by simpa [Prog.runFor] using h
    exact ⟨th, .refl, hcode, hmode, ho⟩
  | succ n ih =>
    cases p with
    | ret a =>
      obtain ⟨rfl, rfl⟩ : Prog.ret a = p' ∧ s = s' := by simpa [Prog.runFor] using h
      exact ⟨th, .refl, hcode, hmode, ho⟩
    | act f k =>
      cases hf : f t s with
      | sleep c => simp [Prog.runFor, hf] at h
      | halt e => simp [Prog.runFor, hf] at h
      | done b s₁ w =>
        rw [Prog.runFor_act hf] at h
        have ht : th t = ⟨.act f k, .running, (th t).chan⟩ := by
          rw [← hcode, ← hmode]
        let th₁ : τ → Thread τ χ η σ := fun u =>
          (update th t ⟨k b, .running, (th t).chan⟩ u).wake w
        have hcode₁ : (th₁ t).code = k b := by simp [th₁]
        have hmode₁ : (th₁ t).mode = .running := Thread.wake_mode_running (by simp)
        have ho₁ : OthersIdle t th₁ := fun u hu => by
          obtain ⟨h₁, h₂⟩ := ho u hu
          exact ⟨by simp [th₁, update_of_ne hu, h₁],
            Thread.wake_mode_running (by simp [update_of_ne hu, h₂])⟩
        obtain ⟨th', hr, hc, hm, hi⟩ := ih h hcode₁ hmode₁ ho₁
        exact ⟨th', .head (.done ht hf) hr, hc, hm, hi⟩

/-- Once the program run at power-on is over, every thread is idle. -/
theorem reachable_boot (h : S.boot.solo t₀ s = some ((), s')) :
    ∃ th, Reachable S (S.powerOn s t₀) ⟨s', th⟩ ∧ AllIdle th := by
  obtain ⟨n, hn⟩ := Prog.exists_runFor_of_solo h
  rw [Prog.bind_ret] at hn
  have ho : OthersIdle t₀ (S.powerOn s t₀).threads := fun u hu => by
    simp [System.powerOn, hu, Thread.idle]
  obtain ⟨th, hr, hc, hm, hi⟩ := reachable_runFor hn (by simp [System.powerOn])
    (by simp [System.powerOn]) ho
  exact ⟨th, hr, hi.all ⟨hc, hm⟩⟩

/-- A call that is about to be made alone, up to an action of it. -/
theorem reachable_call_runFor (c : S.Call) (hall : AllIdle th) (hm : S.may t c s)
    (h : (S.code c).runFor t n s = some (p, s')) :
    ∃ th', Reachable S ⟨s, th⟩ ⟨s', th'⟩ ∧ (th' t).code = p ∧ (th' t).mode = .running ∧
      OthersIdle t th' := by
  have ht : th t = ⟨.ret (), .running, (th t).chan⟩ := by
    rw [← (hall t).1, ← (hall t).2]
  let th₁ := update th t ⟨S.code c, .running, (th t).chan⟩
  have ho₁ : OthersIdle t th₁ := fun u hu => by
    simpa [th₁, update_of_ne hu] using hall u
  obtain ⟨th', hr, hrest⟩ := reachable_runFor h (by simp [th₁]) (by simp [th₁]) ho₁
  exact ⟨th', .head (.call c ht hm) hr, hrest⟩

/-- **A call run alone is one of the interleavings.** -/
theorem reachable_solo (c : S.Call) (hall : AllIdle th) (hm : S.may t c s)
    (h : (S.code c).solo t s = some ((), s')) :
    ∃ th', Reachable S ⟨s, th⟩ ⟨s', th'⟩ ∧ AllIdle th' := by
  obtain ⟨n, hn⟩ := Prog.exists_runFor_of_solo h
  rw [Prog.bind_ret] at hn
  obtain ⟨th', hr, hc, hmode, ho⟩ := reachable_call_runFor c hall hm hn
  exact ⟨th', hr, ho.all ⟨hc, hmode⟩⟩

/-- A call whose first action waits, up to the point where its thread is asleep. -/
theorem reachable_asleep (x : S.Call) {c : χ} (hall : AllIdle th) (hm : S.may t x s)
    (h : (S.code x).WaitsOn t c s) :
    ∃ th', Reachable S ⟨s, th⟩ ⟨s, th'⟩ ∧ th' t = ⟨S.code x, .asleep, some c⟩ := by
  have ht : th t = ⟨.ret (), .running, (th t).chan⟩ := by
    rw [← (hall t).1, ← (hall t).2]
  cases hx : S.code x with
  | ret a =>
    rw [hx] at h
    exact h.elim
  | act f k =>
    rw [hx] at h
    have hcall : Step S ⟨s, th⟩
        ⟨s, update th t ⟨.act f k, .running, (th t).chan⟩⟩ := by
      rw [← hx]
      exact .call x ht hm
    exact ⟨_, .head hcall (.head (.wait (update_self ..) h)
      (.single (.sleep (update_self ..)))), update_self ..⟩

variable [∀ t c s, Decidable (S.may t c s)]

/-- Make the calls of a list one after the other, each of them alone. -/
def System.serial (S : System τ χ η σ) [∀ t c s, Decidable (S.may t c s)] :
    List (τ × S.Call) → σ → Option σ
  | [], s => some s
  | (t, c) :: cs, s => if S.may t c s then ((S.code c).solo t s).bind fun r => S.serial cs r.2
    else none

/-- Boot, then make the calls of a list one after the other. -/
def System.serialFrom (S : System τ χ η σ) [∀ t c s, Decidable (S.may t c s)] (s : σ) (t₀ : τ)
    (cs : List (τ × S.Call)) : Option σ :=
  (S.boot.solo t₀ s).bind fun r => S.serial cs r.2

/-- **Calls made one after the other are one of the interleavings.** -/
theorem reachable_serial (hall : AllIdle th) (h : S.serial cs s = some s') :
    ∃ th', Reachable S ⟨s, th⟩ ⟨s', th'⟩ ∧ AllIdle th' := by
  induction cs generalizing s th with
  | nil =>
    obtain rfl : s = s' := by simpa [System.serial] using h
    exact ⟨th, .refl, hall⟩
  | cons x cs ih =>
    obtain ⟨t, c⟩ := x
    rw [System.serial] at h
    split_ifs at h with hm
    obtain ⟨⟨⟨⟩, s₁⟩, hsolo, hrest⟩ := Option.bind_eq_some_iff.mp h
    obtain ⟨th₁, hr₁, hall₁⟩ := reachable_solo c hall hm hsolo
    obtain ⟨th', hr', hall'⟩ := ih hall₁ hrest
    exact ⟨th', hr₁.trans hr', hall'⟩

theorem reachable_serialFrom (h : S.serialFrom s t₀ cs = some s') :
    ∃ th, Reachable S (S.powerOn s t₀) ⟨s', th⟩ ∧ AllIdle th := by
  obtain ⟨⟨⟨⟩, s₁⟩, hboot, hrest⟩ := Option.bind_eq_some_iff.mp h
  obtain ⟨th₁, hr₁, hall₁⟩ := reachable_boot hboot
  obtain ⟨th, hr, hall⟩ := reachable_serial hall₁ hrest
  exact ⟨th, hr₁.trans hr, hall⟩

/-- Boot, make the calls of a list one after the other, start one more call, and run `n` of its
actions. The result is what is left of that call. -/
def System.partway (S : System τ χ η σ) [∀ t c s, Decidable (S.may t c s)] (s : σ) (t₀ : τ)
    (cs : List (τ × S.Call)) (t : τ) (c : S.Call) (n : ℕ) : Option (Prog τ χ η σ Unit × σ) :=
  (S.serialFrom s t₀ cs).bind fun s₁ => if S.may t c s₁ then (S.code c).runFor t n s₁ else none

theorem reachable_partway {c : S.Call} (h : S.partway s t₀ cs t c n = some (p, s')) :
    ∃ th, Reachable S (S.powerOn s t₀) ⟨s', th⟩ ∧ (th t).code = p ∧ (th t).mode = .running ∧
      OthersIdle t th := by
  obtain ⟨s₁, hserial, hrest⟩ := Option.bind_eq_some_iff.mp h
  split_ifs at hrest with hmay
  obtain ⟨th₁, hr₁, hall⟩ := reachable_serialFrom hserial
  obtain ⟨th, hr, hth⟩ := reachable_call_runFor c hall hmay hrest
  exact ⟨th, hr₁.trans hr, hth⟩

/-- What is true then can be computed. -/
theorem exists_of_partway {c : S.Call} {P : Prog τ χ η σ Unit × σ → Prop} [DecidablePred P]
    (h : (S.partway s t₀ cs t c n).any (fun r => P r) = true) :
    ∃ s' th, Reachable S (S.powerOn s t₀) ⟨s', th⟩ ∧ (th t).mode = .running ∧
      P ((th t).code, s') := by
  obtain ⟨⟨p, s'⟩, hs, hp⟩ := (Option.any_eq_true _ _).mp h
  obtain ⟨th, hr, rfl, hm, -⟩ := reachable_partway hs
  exact ⟨s', th, hr, hm, of_decide_eq_true hp⟩

end Solo

/-! ## Chosen interleavings -/

/-- One move of a chosen interleaving: a thread makes a call, or completes its next action. -/
inductive Move (τ C : Type) where
  | call (t : τ) (c : C)
  | act (t : τ)

section Play

variable [DecidableEq τ] [DecidableEq χ] {S : System τ χ η σ}

/-- One move, if it is possible. -/
def System.move (S : System τ χ η σ) [∀ t c s, Decidable (S.may t c s)] (cfg : Config τ χ η σ) :
    Move τ S.Call → Option (Config τ χ η σ)
  | .call t c =>
    match cfg.threads t with
    | ⟨.ret (), .running, ch⟩ =>
      if S.may t c cfg.shared then
        some ⟨cfg.shared, update cfg.threads t ⟨S.code c, .running, ch⟩⟩
      else none
    | _ => none
  | .act t =>
    match cfg.threads t with
    | ⟨.act f k, .running, ch⟩ =>
      match f t cfg.shared with
      | .done b s' w =>
        some ⟨s', fun u => (update cfg.threads t ⟨k b, .running, ch⟩ u).wake w⟩
      | _ => none
    | _ => none

/-- The moves of a list one after the other. -/
def System.play (S : System τ χ η σ) [∀ t c s, Decidable (S.may t c s)] :
    List (Move τ S.Call) → Config τ χ η σ → Option (Config τ χ η σ)
  | [], cfg => some cfg
  | m :: ms, cfg => (S.move cfg m).bind (S.play ms)

variable [∀ t c s, Decidable (S.may t c s)] {cfg' : Config τ χ η σ}

theorem step_of_move {m : Move τ S.Call} (h : S.move cfg m = some cfg') : Step S cfg cfg' := by
  obtain ⟨s, th⟩ := cfg
  cases m with
  | call t c =>
    simp only [System.move] at h
    split at h
    · next ch ht =>
      split_ifs at h with hm
      cases h
      exact .call c ht hm
    · cases h
  | act t =>
    simp only [System.move] at h
    split at h
    · next ht =>
      split at h
      · next hf =>
        cases h
        exact .done ht hf
      · cases h
    · cases h

/-- **A chosen interleaving is one of the interleavings.** -/
theorem reachable_play {ms : List (Move τ S.Call)} (h : S.play ms cfg = some cfg') :
    Reachable S cfg cfg' := by
  induction ms generalizing cfg with
  | nil =>
    cases h
    exact .refl
  | cons m ms ih =>
    obtain ⟨cfg₁, hm, hrest⟩ := Option.bind_eq_some_iff.mp h
    exact .head (step_of_move hm) (ih hrest)

/-- What it ends with can be computed. -/
theorem exists_of_play (ms : List (Move τ S.Call)) {P : Config τ χ η σ → Prop} [DecidablePred P]
    (h : (S.play ms cfg).any (fun cfg' => P cfg') = true) :
    ∃ cfg', Reachable S cfg cfg' ∧ P cfg' := by
  obtain ⟨cfg', hcfg, hp⟩ := (Option.any_eq_true _ _).mp h
  exact ⟨cfg', reachable_play hcfg, of_decide_eq_true hp⟩

end Play

end Threads
