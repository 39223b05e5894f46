import TrinityXv6.Lib.Threads

/-!
# Histories added to a system

A system can be given a history, or other data that none of its code reads, by letting its actions
write it and by adding actions that do nothing else. `Prog.Erases` says of a program that it is
another one with such additions, and `follows_of_reachable` that nothing is lost by them: every run
of the system without a history is what is left of a run of the system with one.
-/

namespace Threads

variable {τ χ η σ ρ α β : Type} {π : σ → ρ} {f : τ → σ → Outcome χ η σ α} {k : α → Prog τ χ η σ β}

/-- Without what `π` forgets, the first program is the second. It may have more actions, which
complete, wake nobody and change nothing else. -/
inductive Prog.Erases (π : σ → ρ) : Prog τ χ η σ α → Prog τ χ η ρ α → Prop
  | ret (a : α) : Erases π (.ret a) (.ret a)
  | act {γ : Type} {f : τ → σ → Outcome χ η σ γ} {g : τ → ρ → Outcome χ η ρ γ}
      {k : γ → Prog τ χ η σ α} {l : γ → Prog τ χ η ρ α}
      (hf : ∀ t s, (f t s).map π = g t (π s)) (hk : ∀ b, Erases π (k b) (l b)) :
      Erases π (.act f k) (.act g l)
  | ghost {γ : Type} {f : τ → σ → Outcome χ η σ γ} {k : γ → Prog τ χ η σ α}
      {q : Prog τ χ η ρ α} (hf : ∀ t s, ∃ b s', f t s = .done b s' [] ∧ π s' = π s)
      (hk : ∀ b, Erases π (k b) q) : Erases π (.act f k) q

namespace Prog.Erases

/-- **Additions compose.** -/
theorem bind {p : Prog τ χ η σ α} {q : Prog τ χ η ρ α}
    {l : α → Prog τ χ η ρ β} (h : p.Erases π q) (hk : ∀ a, (k a).Erases π (l a)) :
    (p >>= k).Erases π (q >>= l) := by
  induction h with
  | ret a => exact hk a
  | act hf _ ih => exact .act hf fun b => ih b
  | ghost hf _ ih => exact .ghost hf fun b => ih b

theorem atomic {g : τ → ρ → Outcome χ η ρ α}
    (hf : ∀ t s, (f t s).map π = g t (π s)) : (Prog.atomic f).Erases π (Prog.atomic g) :=
  .act hf .ret

/-- An action that only adds to the history, before a program. -/
theorem ghost_bind {q : Prog τ χ η ρ β}
    (hf : ∀ t s, ∃ b s', f t s = .done b s' [] ∧ π s' = π s) (hk : ∀ a, (k a).Erases π q) :
    (Prog.atomic f >>= k).Erases π q :=
  .ghost hf hk

theorem ite {c : Prop} [Decidable c] {p p' : Prog τ χ η σ α} {q q' : Prog τ χ η ρ α}
    (h : p.Erases π q) (h' : p'.Erases π q') :
    (if c then p else p').Erases π (if c then q else q') := by
  by_cases hc : c
  · rw [if_pos hc, if_pos hc]
    exact h
  · rw [if_neg hc, if_neg hc]
    exact h'

end Prog.Erases

/-- What a program does next is what the other one does next. -/
inductive Prog.Heads (π : σ → ρ) : Prog τ χ η σ α → Prog τ χ η ρ α → Prop
  | ret (a : α) : Heads π (.ret a) (.ret a)
  | act {γ : Type} {f : τ → σ → Outcome χ η σ γ} {g : τ → ρ → Outcome χ η ρ γ}
      {k : γ → Prog τ χ η σ α} {l : γ → Prog τ χ η ρ α}
      (hf : ∀ t s, (f t s).map π = g t (π s)) (hk : ∀ b, (k b).Erases π (l b)) :
      Heads π (.act f k) (.act g l)

/-- Without what `π` forgets, the first thread is the second. -/
structure Thread.Follows (π : σ → ρ) (th : Thread τ χ η σ) (th' : Thread τ χ η ρ) : Prop where
  code : th.code.Erases π th'.code
  mode : th.mode = th'.mode
  chan : th.chan = th'.chan

/-- Without what `π` forgets, the first configuration is the second. -/
structure Follows (π : σ → ρ) (cfg : Config τ χ η σ) (cfg' : Config τ χ η ρ) : Prop where
  shared : π cfg.shared = cfg'.shared
  threads : ∀ t, (cfg.threads t).Follows π (cfg'.threads t)

section Wake

variable [DecidableEq χ]

theorem Thread.wake_nil (th : Thread τ χ η σ) : th.wake [] = th := by
  unfold Thread.wake
  split
  · rfl
  · simp

theorem Thread.Follows.wake {th : Thread τ χ η σ} {th' : Thread τ χ η ρ} (h : th.Follows π th')
    (w : List χ) : (th.wake w).Follows π (th'.wake w) := by
  obtain ⟨p, m, c⟩ := th
  obtain ⟨q, m', c'⟩ := th'
  obtain ⟨hcode, hmode, hchan⟩ := h
  simp only at hcode hmode hchan
  subst hmode hchan
  cases c with
  | none => exact ⟨hcode, rfl, rfl⟩
  | some c =>
    by_cases hc : c ∈ w
    · simp only [Thread.wake, if_pos hc]
      exact ⟨hcode, rfl, rfl⟩
    · simp only [Thread.wake, if_neg hc]
      exact ⟨hcode, rfl, rfl⟩

end Wake

section Runs

variable [DecidableEq τ] [DecidableEq χ] {S : System τ χ η σ} {S' : System τ χ η ρ}
  {cfg : Config τ χ η σ} {cfg' : Config τ χ η ρ} {t : τ}

omit [DecidableEq χ] in
theorem Follows.update {th : τ → Thread τ χ η σ} {th' : τ → Thread τ χ η ρ}
    (h : ∀ u, (th u).Follows π (th' u)) {x : Thread τ χ η σ} {x' : Thread τ χ η ρ}
    (hx : x.Follows π x') (u : τ) :
    (Function.update th t x u).Follows π (Function.update th' t x' u) := by
  by_cases hu : u = t
  · rw [hu, Function.update_self, Function.update_self]
    exact hx
  · rw [Function.update_of_ne hu, Function.update_of_ne hu]
    exact h u

omit [DecidableEq τ] [DecidableEq χ] in
theorem Follows.thread (h : Follows π cfg cfg') {q : Prog τ χ η ρ Unit} {m : Mode η}
    {ch : Option χ} (ht : cfg'.threads t = ⟨q, m, ch⟩) :
    ∃ p, cfg.threads t = ⟨p, m, ch⟩ ∧ p.Erases π q := by
  obtain ⟨hcode, hmode, hchan⟩ := h.threads t
  rw [ht] at hcode hmode hchan
  have hm : (cfg.threads t).mode = m := hmode
  have hc : (cfg.threads t).chan = ch := hchan
  exact ⟨(cfg.threads t).code, by rw [← hm, ← hc], hcode⟩

/-- A thread makes the additions that are due, up to its next action proper. -/
theorem Follows.settle (S : System τ χ η σ) {p : Prog τ χ η σ Unit} {q : Prog τ χ η ρ Unit}
    (hpq : p.Erases π q) {s : σ} {th : τ → Thread τ χ η σ} (h : Follows π ⟨s, th⟩ cfg')
    {ch : Option χ} (hp : th t = ⟨p, .running, ch⟩) (hq : cfg'.threads t = ⟨q, .running, ch⟩) :
    ∃ s' th' p', Reachable S ⟨s, th⟩ ⟨s', th'⟩ ∧ Follows π ⟨s', th'⟩ cfg' ∧
      th' t = ⟨p', .running, ch⟩ ∧ p'.Heads π q := by
  induction hpq generalizing s th with
  | ret a => exact ⟨s, th, _, .refl, h, hp, .ret a⟩
  | act hf hk _ => exact ⟨s, th, _, .refl, h, hp, .act hf hk⟩
  | @ghost γ f k q hf hk ih =>
    obtain ⟨b, s', hdone, hs'⟩ := hf t s
    have hstep := Step.done (S := S) hp hdone
    have hth : (fun u => (Function.update th t ⟨k b, .running, ch⟩ u).wake []) =
        Function.update th t ⟨k b, .running, ch⟩ := funext fun u => Thread.wake_nil _
    rw [hth] at hstep
    have hself : cfg'.threads = Function.update cfg'.threads t ⟨q, .running, ch⟩ := by
      rw [← hq, Function.update_eq_self]
    have h' : Follows π ⟨s', Function.update th t ⟨k b, .running, ch⟩⟩ cfg' := by
      refine ⟨hs'.trans h.shared, fun u => ?_⟩
      rw [hself]
      exact Follows.update h.threads ⟨hk b, rfl, rfl⟩ u
    obtain ⟨s'', th', p', hd, hfol, hp', hhead⟩ := ih b h' (Function.update_self ..) hq
    exact ⟨s'', th', p', .head hstep hd, hfol, hp', hhead⟩

/-- It is then about to do what the other one does. -/
theorem Follows.act (S : System τ χ η σ) (h : Follows π cfg cfg') {γ : Type}
    {g : τ → ρ → Outcome χ η ρ γ} {l : γ → Prog τ χ η ρ Unit} {ch : Option χ}
    (ht : cfg'.threads t = ⟨.act g l, .running, ch⟩) :
    ∃ s th f k, Reachable S cfg ⟨s, th⟩ ∧ Follows π ⟨s, th⟩ cfg' ∧
      th t = ⟨.act f k, .running, ch⟩ ∧ (f t s).map π = g t cfg'.shared ∧
      (∀ b, (k b).Erases π (l b)) ∧ (Prog.act f k).Erases π (.act g l) := by
  obtain ⟨p, hp, hpq⟩ := h.thread ht
  obtain ⟨s, th, p', hd, hfol, hp', hhead⟩ := Follows.settle S hpq h hp ht
  cases hhead with
  | @act _ f _ k _ hf hk =>
    refine ⟨s, th, f, k, hd, hfol, hp', ?_, hk, .act hf hk⟩
    rw [hf, hfol.shared]

/-- Every call of a system without a history is one of the system with it. -/
structure System.Erases (π : σ → ρ) (S : System τ χ η σ) (S' : System τ χ η ρ) : Prop where
  call : ∀ c' : S'.Call, ∃ c : S.Call, (S.code c).Erases π (S'.code c') ∧
    ∀ t s, S'.may t c' (π s) → S.may t c s
  boot : S.boot.Erases π S'.boot
  resets : ¬ S'.resets

/-- **One step of the system without a history**, in the system with it. -/
theorem Follows.step (hS : S.Erases π S') (h : Follows π cfg cfg') {next : Config τ χ η ρ}
    (hs : Step S' cfg' next) : ∃ d, Reachable S cfg d ∧ Follows π d next := by
  cases hs with
  | @call s' th₁ t ch c ht hm =>
    obtain ⟨p, hp, hpq⟩ := h.thread ht
    obtain ⟨s₂, th₂, p', hd, hfol, hp', hhead⟩ := Follows.settle S hpq h hp ht
    cases hhead
    obtain ⟨c', hcode, hmay⟩ := hS.call c
    have hshared : π s₂ = s' := hfol.shared
    refine ⟨_, hd.tail (.call c' hp' (hmay t s₂ (by rwa [hshared]))), hfol.shared, fun u => ?_⟩
    exact Follows.update hfol.threads ⟨hcode, rfl, rfl⟩ u
  | @done s' th₁ t ch β g l b s'' w ht hg =>
    obtain ⟨s₂, th₂, f, k, hd, hfol, hp, hmap, hk, -⟩ := h.act S ht
    obtain ⟨s₃, hdone, hs₃⟩ := Outcome.map_eq_done (hmap.trans hg)
    refine ⟨_, hd.tail (.done hp hdone), hs₃.symm, fun u => ?_⟩
    exact (Follows.update hfol.threads ⟨hk b, rfl, rfl⟩ u).wake w
  | @wait s' th₁ t ch β g l c ht hg =>
    obtain ⟨s₂, th₂, f, k, hd, hfol, hp, hmap, -, hact⟩ := h.act S ht
    have hwait := Outcome.map_eq_sleep (hmap.trans hg)
    refine ⟨_, hd.tail (.wait hp hwait), hfol.shared, fun u => ?_⟩
    exact Follows.update hfol.threads ⟨hact, rfl, rfl⟩ u
  | @halt s' th₁ t ch β g l e ht hg =>
    obtain ⟨s₂, th₂, f, k, hd, hfol, hp, hmap, -, hact⟩ := h.act S ht
    have hhalt := Outcome.map_eq_halt (hmap.trans hg)
    refine ⟨_, hd.tail (.halt hp hhalt), hfol.shared, fun u => ?_⟩
    exact Follows.update hfol.threads ⟨hact, rfl, rfl⟩ u
  | @sleep s' th₁ t q c ht =>
    obtain ⟨p, hp, hpq⟩ := h.thread ht
    refine ⟨_, .single (.sleep hp), h.shared, fun u => ?_⟩
    exact Follows.update h.threads ⟨hpq, rfl, rfl⟩ u
  | @nosleep s' th₁ t q ht =>
    obtain ⟨p, hp, hpq⟩ := h.thread ht
    refine ⟨_, .single (.nosleep hp), h.shared, fun u => ?_⟩
    exact Follows.update h.threads ⟨hpq, rfl, rfl⟩ u
  | @kill s' th₁ t q ch ht =>
    obtain ⟨p, hp, hpq⟩ := h.thread ht
    refine ⟨_, .single (.kill hp), h.shared, fun u => ?_⟩
    exact Follows.update h.threads ⟨hpq, rfl, rfl⟩ u
  | reset hr => exact absurd hr hS.resets

/-- **Runs have histories.** -/
theorem follows_of_reachable (hS : S.Erases π S') {s : σ} {t₀ : τ}
    (hr : Reachable S' (S'.powerOn (π s) t₀) cfg') :
    ∃ cfg, Reachable S (S.powerOn s t₀) cfg ∧ Follows π cfg cfg' := by
  induction hr with
  | refl =>
    refine ⟨_, .refl, rfl, fun t => ?_⟩
    by_cases ht : t = t₀
    · simp only [System.powerOn, if_pos ht]
      exact ⟨hS.boot, rfl, rfl⟩
    · simp only [System.powerOn, if_neg ht]
      exact ⟨.ret (), rfl, rfl⟩
  | tail _ hs ih =>
    obtain ⟨cfg, hcfg, hfol⟩ := ih
    obtain ⟨d, hd, hfol'⟩ := hfol.step hS hs
    exact ⟨d, hcfg.trans hd, hfol'⟩

end Runs

end Threads
