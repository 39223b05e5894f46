import TrinityXv6.Lib.Threads

/-!
# Commands that may fail

A command runs on a state without being interrupted: it ends with a result and a new state, or it
fails. Commands are what the atomic actions of `TrinityXv6.Lib.Threads` are made of when an action
is a whole piece of code rather than one update.

`Ends r Q E` is the specification of one run: if it ended, `Q` holds of the result and the new
state, and if it failed, `E` holds of the reason. Such specifications compose along `>>=`, so that
the specification of a function is put together from those of the functions it calls.
-/

namespace Command

/-- A command: it ends with a result and a new state, or fails. -/
def Cmd (σ ε α : Type) := σ → Except ε (α × σ)

variable {σ ε α β : Type}

instance : Monad (Cmd σ ε) where
  pure a := fun s => .ok (a, s)
  bind x f := fun s => match x s with
    | .ok (a, s') => f a s'
    | .error e => .error e

/-- The state. -/
def get : Cmd σ ε σ := fun s => .ok (s, s)

/-- Change the state. -/
def modify (f : σ → σ) : Cmd σ ε Unit := fun s => .ok ((), f s)

/-- Fail. -/
def fail (e : ε) : Cmd σ ε α := fun _ => .error e

/-- Run `f i`, `f (i + 1)` and so on, `n` times in all. -/
def loop (f : ℕ → Cmd σ ε Unit) : (i n : ℕ) → Cmd σ ε Unit
  | _, 0 => pure ()
  | i, n + 1 => f i >>= fun _ => loop f (i + 1) n

@[simp] theorem modify_apply (f : σ → σ) (s : σ) :
    (modify f : Cmd σ ε Unit) s = .ok ((), f s) := rfl

variable {x : Cmd σ ε α} {r : Except ε (α × σ)} {a : α} {f : α → Cmd σ ε β} {e : ε} {γ : Type}

theorem bind_of_ok {s s' : σ} (h : x s = .ok (a, s')) : (x >>= f) s = f a s' := by
  show (match x s with
    | .ok (a, s') => f a s'
    | .error e => .error e) = f a s'
  rw [h]

theorem bind_of_error {s : σ} (h : x s = .error e) : (x >>= f) s = .error e := by
  show (match x s with
    | .ok (a, s') => f a s'
    | .error e => .error e) = .error e
  rw [h]

theorem bind_of_eq {y : Cmd σ ε α} {s s' : σ} (h : x s = y s') : (x >>= f) s = (y >>= f) s' := by
  cases hy : y s' with
  | ok r => rw [bind_of_ok (h.trans hy), bind_of_ok hy]
  | error e => rw [bind_of_error (h.trans hy), bind_of_error hy]

theorem bind_bind (x : Cmd σ ε α) (f : α → Cmd σ ε β) (g : β → Cmd σ ε γ) :
    x >>= (fun a => f a >>= g) = (x >>= f) >>= g := by
  funext s
  cases h : x s with
  | ok r =>
    have hf : (x >>= f) s = f r.1 r.2 := bind_of_ok h
    rw [bind_of_ok h]
    show _ = (match (x >>= f) s with
      | .ok (b, s') => g b s'
      | .error e => .error e)
    rw [hf]
    rfl
  | error e => rw [bind_of_error h, bind_of_error (bind_of_error h)]

@[simp] theorem get_bind (f : σ → Cmd σ ε β) (s : σ) : (get >>= f) s = f s s := rfl

@[simp] theorem modify_bind (g : σ → σ) (f : Unit → Cmd σ ε β) (s : σ) :
    (modify g >>= f) s = f () (g s) := rfl

/-! ## Specifications -/

/-- What holds of the outcome of a run. -/
def Ends (r : Except ε (α × σ)) (Q : α → σ → Prop) (E : ε → Prop) : Prop :=
  match r with
  | .ok (a, s) => Q a s
  | .error e => E e

variable {Q R : α → σ → Prop} {E F : ε → Prop} {s : σ}

@[simp] theorem ends_ok : Ends (.ok (a, s)) Q E ↔ Q a s := Iff.rfl

theorem Ends.mono (h : Ends r Q E) (hQ : ∀ a s, Q a s → R a s) (hE : ∀ e, E e → F e) :
    Ends r R F := by
  cases r with
  | ok x => exact hQ _ _ h
  | error e => exact hE e h

theorem Ends.imp (h : Ends r Q E) (hQ : ∀ a s, Q a s → R a s) : Ends r R E :=
  h.mono hQ fun _ he => he

/-- **Specifications compose.** -/
theorem Ends.bind {T : β → σ → Prop} (hx : Ends (x s) Q E)
    (hf : ∀ a s', Q a s' → Ends (f a s') T E) :
    Ends ((x >>= f) s) T E := by
  cases h : x s with
  | ok r =>
    rw [h] at hx
    rw [bind_of_ok h]
    exact hf _ _ hx
  | error e =>
    rw [h] at hx
    rw [bind_of_error h]
    exact hx

theorem Ends.ok (h : Ends r Q E) (hr : r = .ok (a, s)) : Q a s := by
  rw [hr] at h
  exact h

theorem Ends.error (h : Ends r Q E) (hr : r = .error e) : E e := by
  rw [hr] at h
  exact h

/-- A run that cannot fail ends. -/
theorem Ends.exists_ok (h : Ends r Q fun _ => False) : ∃ a s, r = .ok (a, s) ∧ Q a s := by
  cases r with
  | ok x => exact ⟨x.1, x.2, rfl, h⟩
  | error e => exact h.elim

/-- Where the command ends, what `π` shows of the state is as before. -/
def Leaves (π : σ → β) (x : Cmd σ ε α) : Prop :=
  ∀ s, Ends (x s) (fun _ s' => π s' = π s) fun _ => True

theorem leaves_pure (π : σ → β) (a : α) : Leaves π (pure a : Cmd σ ε α) := fun _ => rfl

theorem Leaves.bind {π : σ → γ} (hx : Leaves π x) (hf : ∀ a, Leaves π (f a)) :
    Leaves π (x >>= f) := fun s =>
  (hx s).bind fun a s' h => (hf a s').imp fun _ _ h' => h'.trans h

/-- A run that is seen to end with what a test accepts. -/
theorem exists_of_toOption_any {r : Except ε α} {test : α → Bool}
    (h : r.toOption.any test = true) : ∃ a, r = .ok a ∧ test a = true := by
  cases r with
  | ok a => exact ⟨a, rfl, h⟩
  | error e => cases h

/-! ## Commands on part of the state -/

section Zoom

variable {τ : Type} {put : σ → τ → σ}

/-- Run a command on the part of the state that `π` shows and `put` replaces. -/
def zoom (π : σ → τ) (put : σ → τ → σ) (c : Cmd τ ε α) : Cmd σ ε α := fun s =>
  match c (π s) with
  | .ok (a, x) => .ok (a, put s x)
  | .error e => .error e

theorem zoom_spec {π : σ → τ} {c : Cmd τ ε α} {T : α → τ → Prop} (h : Ends (c (π s)) T E) :
    Ends (zoom π put c s) (fun a s' => ∃ x, s' = put s x ∧ T a x) E := by
  rw [zoom]
  cases hc : c (π s) with
  | ok r =>
    rw [hc] at h
    exact ⟨r.2, rfl, h⟩
  | error e =>
    rw [hc] at h
    exact h

/-- The first run is the second one, with more in the state (`π` is what the second one sees of it)
and in the result. -/
def Refines (π : σ → τ) (g : α → β) (r : Except ε (α × σ)) (r' : Except ε (β × τ)) : Prop :=
  r' = r.map fun x => (g x.1, π x.2)

variable {π : σ → τ} {g : α → β} {r' : Except ε (β × τ)}

theorem Refines.bind {γ δ : Type} {c : Cmd σ ε α} {c' : Cmd τ ε β} {f : α → Cmd σ ε γ}
    {f' : β → Cmd τ ε δ} {h : γ → δ} (hc : Refines π g (c s) (c' (π s)))
    (hf : ∀ a s', c s = .ok (a, s') → Refines π h (f a s') (f' (g a) (π s'))) :
    Refines π h ((c >>= f) s) ((c' >>= f') (π s)) := by
  cases hr : c s with
  | ok r =>
    rw [hr] at hc
    rw [bind_of_ok hr, bind_of_ok hc]
    exact hf _ _ hr
  | error e =>
    rw [hr] at hc
    rw [bind_of_error hr, bind_of_error hc]
    rfl

/-- Code after a command that the other run does not have. -/
theorem Refines.then {c : Cmd σ ε α} {f : α → Cmd σ ε γ} {h : γ → β} (hc : Refines π g (c s) r')
    (hf : ∀ a s', Refines π h (f a s') (.ok (g a, π s'))) : Refines π h ((c >>= f) s) r' := by
  cases hr : c s with
  | ok r =>
    rw [hr] at hc
    rw [bind_of_ok hr, show r' = .ok (g r.1, π r.2) from hc]
    exact hf _ _
  | error e =>
    rw [hr] at hc
    rw [bind_of_error hr, show r' = .error e from hc]
    rfl

theorem zoom_refines (hput : ∀ x, π (put s x) = x) (c : Cmd τ ε α) :
    Refines π id (zoom π put c s) (c (π s)) := by
  rw [Refines, zoom]
  cases c (π s) with
  | ok r => exact congrArg (fun x => Except.ok (r.1, x)) (hput r.2).symm
  | error e => rfl

/-- What holds of the run that sees less holds of the one that sees more. -/
theorem Refines.ends {T : β → τ → Prop}
    (h : Refines π g r r') (ht : Ends r' T E) : Ends r (fun a s => T (g a) (π s)) E := by
  rw [Refines] at h
  rw [h] at ht
  cases r with
  | ok x => exact ht
  | error e => exact ht

end Zoom

theorem Ends.and (h : Ends r Q E) (h' : Ends r R F) : Ends r (fun a s => Q a s ∧ R a s) E := by
  cases r with
  | ok x => exact ⟨h, h'⟩
  | error e => exact h

/-! ## Commands as actions of a thread -/

/-- The outcome of a command, as that of an action. -/
def toOutcome {χ : Type} (w : List χ) : Except ε (α × σ) → Threads.Outcome χ ε σ α
  | .ok (a, s) => .done a s w
  | .error e => .halt e

end Command

namespace Threads

/-- The program whose only action is a command. -/
def Prog.cmd {τ χ η σ α : Type} (f : τ → Command.Cmd σ η α) : Prog τ χ η σ α :=
  .atomic fun t s => Command.toOutcome [] (f t s)

theorem Prog.solo_cmd {τ χ η σ α : Type} {f : τ → Command.Cmd σ η α} {t : τ} {s s' : σ} {a : α}
    (h : f t s = .ok (a, s')) : (Prog.cmd f : Prog τ χ η σ α).solo t s = some (a, s') := by
  refine Prog.solo_atomic (w := []) ?_
  rw [h]
  rfl

theorem Prog.solo_cmd_error {τ χ η σ α : Type} {f : τ → Command.Cmd σ η α} {t : τ} {s : σ} {e : η}
    (h : f t s = .error e) : (Prog.cmd f : Prog τ χ η σ α).solo t s = none := by
  simp [Prog.cmd, Prog.atomic, Prog.solo, h, Command.toOutcome]

end Threads
