import Mathlib.Data.List.FinRange
import TrinityXv6.Lib.Threads
import TrinityXv6.Param

/-!
# The process table, and sleeping on it

`struct proc` as `kernel/proc.h` has it, spin locks, and the functions of `kernel/proc.c` that
move a process between its states: `sleep_prepare`, `sleep`, `wakeup`, `killed`, `kkill`,
`setkilled`, `yield` and one turn of `scheduler`.

An action is what the code does during one hold of a `p->lock`, or of another spin lock that is
held for a few instructions only. A spin lock that is held across several such actions is part of
the state. A process acts only while its state is `RUNNING`; a process that is not `RUNNING`, or
that spins on a lock, tries again. The processors, which run the scheduler and the interrupt
handlers, act at any time. So every order in which the locks can be taken is an interleaving of the
model, and timer interrupts may fall anywhere.

The history is a list of what has happened, newest first. No code reads it: it is there so that the
results can speak about the past.

The number of processes, the channels, the locks and what the locks protect are parameters. A
program is a finite tree, so a loop that may go round without end takes the number of its turns as
an argument; after the last one the caller stays where it is.
-/

namespace TrinityXv6

namespace Process

open Threads
open Function (update update_eq_self update_of_ne update_self)

/-- `enum procstate` -/
inductive ProcState where
  | unused
  | used
  | sleeping
  | runnable
  | running
  | zombie
  deriving DecidableEq, Repr

/-- `NOFILE`: descriptors of a process. -/
abbrev nofile : ℕ := 16

/-- `struct proc`. A pointer that is only compared with zero is whether it is nonzero; `chan` and
`parent` are `none` where the source has zero. -/
structure Proc (n : ℕ) (χ : Type) where
  state : ProcState
  chan : Option χ
  killed : Bool
  xstate : Int32
  pid : Int32
  parent : Option (Fin n)
  trapframe : Bool
  pagetable : Bool
  ofile : Fin nofile → Bool
  cwd : Bool

/-- Who acts: a process, or a processor in its scheduler or in an interrupt handler. -/
abbrev Tid (n : ℕ) := Fin n ⊕ ℕ

/-- What the history records. -/
inductive Event (n : ℕ) (χ : Type) where
  /-- `p` has set its channel to `c`. -/
  | prepared (p : Fin n) (c : χ)
  /-- A `wakeup` of `c` has gone past `p`. -/
  | visited (p : Fin n) (c : χ)
  /-- `p` has been through `sleep`. -/
  | slept (p : Fin n)
  /-- `p` has asked whether it is killed, and was not. -/
  | tested (p : Fin n)
  /-- A `kkill(pid)` of `t` has marked `p`. -/
  | kill (p : Fin n) (pid : Int32) (t : Tid n)
  /-- A `kkill(pid)` of `t` has returned. -/
  | killRet (t : Tid n) (pid : Int32) (r : ℤ)
  /-- `p` has marked itself after a fault. -/
  | fault (p : Fin n)
  /-- A `kfork` of `q` has taken a pid, and the slot `p` if it did not fail. -/
  | allocated (p : Option (Fin n)) (q : Fin n)
  /-- The `kfork` that created `p` is complete. -/
  | started (p : Fin n)
  /-- `p` has become a zombie with this status. -/
  | exited (p : Fin n) (status : Int32)
  /-- A `kwait` of `q` has freed `p`, stored a status and is about to return. `dst` is as in
  `kwait`. -/
  | reaped (q p : Fin n) (ret : Int32) (dst : Option Bool) (stored : Option Int32)
  /-- A `kwait` of `q` could not store the status of `p`. -/
  | unstored (q p : Fin n)
  /-- A `kwait` of `p` has returned. -/
  | waitRet (p : Fin n) (r : Int32)
  /-- A call of `pipewrite` from this buffer, the bytes it adds to the pipe, and its end. -/
  | writeCall (p : Fin n) (src : ℕ → Option UInt8)
  | accepted (p : Fin n) (b : UInt8)
  | writeRet (p : Fin n) (k : ℤ)
  /-- A call of `piperead`, the bytes it stores and where, and its end. -/
  | readCall (p : Fin n)
  | delivered (p : Fin n) (i : ℕ) (b : UInt8)
  | readRet (p : Fin n) (k : ℤ)

/-- The process table, the spin locks with their holders, and what else the kernel keeps. -/
structure State (n : ℕ) (χ ℓ D : Type) where
  proc : Fin n → Proc n χ
  nextpid : Int32
  lock : ℓ → Option (Tid n)
  data : D
  hist : List (Event n χ)

/-- Why the kernel stops. -/
inductive Halt where
  /-- `panic("acquire")`: the lock is held by the caller. -/
  | acquire
  /-- `panic("release")`: the lock is not held by the caller. -/
  | release
  /-- `panic("init exiting")` -/
  | initExiting
  /-- `myproc()` is zero. -/
  | myproc
  deriving DecidableEq, Repr

/-- Code of the kernel. -/
abbrev K (n : ℕ) (χ ℓ D : Type) := Prog (Tid n) Unit Halt (State n χ ℓ D)

variable {n : ℕ} {χ ℓ D α : Type}

namespace State

/-- Put a process into the table. -/
def setProc (s : State n χ ℓ D) (p : Fin n) (v : Proc n χ) : State n χ ℓ D :=
  { s with proc := update s.proc p v }

/-- Put the data behind the locks. -/
def setData (s : State n χ ℓ D) (d : D) : State n χ ℓ D := { s with data := d }

/-- Record an event. -/
def note (s : State n χ ℓ D) (e : Event n χ) : State n χ ℓ D := { s with hist := e :: s.hist }

/-- Change the holder of a lock. -/
def setLock [DecidableEq ℓ] (s : State n χ ℓ D) (l : ℓ) (h : Option (Tid n)) : State n χ ℓ D :=
  { s with lock := update s.lock l h }

/-- Whether `t` can act. -/
def runs (s : State n χ ℓ D) : Tid n → Prop
  | .inl p => (s.proc p).state = .running
  | .inr _ => True

instance (s : State n χ ℓ D) (t : Tid n) : Decidable (s.runs t) := by
  cases t <;> unfold runs <;> infer_instance

section Fields

variable (s : State n χ ℓ D) (p q : Fin n) (v : Proc n χ) (d : D) (e : Event n χ)

@[simp] theorem setProc_proc_self : (s.setProc p v).proc p = v := update_self ..

@[simp] theorem setProc_proc_of_ne {p q : Fin n} (h : q ≠ p) : (s.setProc p v).proc q = s.proc q :=
  update_of_ne h ..

variable {p v} in
/-- Entries agree in what a change of one of them does not touch. -/
theorem setProc_proj {β : Type} (f : Proc n χ → β) (h : f v = f (s.proc p)) (q : Fin n) :
    f ((s.setProc p v).proc q) = f (s.proc q) := view_update f h q

variable {s p q v} in
theorem of_setProc_sleeping (hv : v.state = .sleeping → (s.proc p).state = .sleeping)
    (h : ((s.setProc p v).proc q).state = .sleeping) : (s.proc q).state = .sleeping := by
  rcases update_cases h with ⟨rfl, hnew⟩ | ⟨-, h⟩
  · exact hv hnew
  · exact h

@[simp] theorem setProc_hist : (s.setProc p v).hist = s.hist := rfl

@[simp] theorem setData_data : (s.setData d).data = d := rfl

@[simp] theorem note_proc : (s.note e).proc = s.proc := rfl

@[simp] theorem note_hist : (s.note e).hist = e :: s.hist := rfl

variable [DecidableEq ℓ] (l : ℓ) (o : Option (Tid n))

@[simp] theorem setLock_proc : (s.setLock l o).proc = s.proc := rfl

@[simp] theorem setLock_lock_self : (s.setLock l o).lock l = o := update_self ..

@[simp] theorem setLock_lock_of_ne {l l' : ℓ} (h : l' ≠ l) :
    (s.setLock l o).lock l' = s.lock l' := update_of_ne h ..

end Fields

end State

/-! ## Actions -/

/-- An action of whoever runs it. -/
def step (f : Tid n → State n χ ℓ D → Outcome Unit Halt (State n χ ℓ D) α) : K n χ ℓ D α :=
  .atomic fun t s => if s.runs t then f t s else .sleep ()

/-- An action that always completes. -/
def always (f : State n χ ℓ D → α × State n χ ℓ D) : K n χ ℓ D α :=
  step fun _ s => .done (f s).1 (f s).2 []

/-- An action of the current process. -/
def mine (f : Fin n → State n χ ℓ D → α × State n χ ℓ D) : K n χ ℓ D α :=
  step fun t s => match t with
    | .inl p => .done (f p s).1 (f p s).2 []
    | .inr _ => .halt .myproc

/-- A call that has used up its turns stays where it is. -/
def stay : K n χ ℓ D α := step fun _ _ => .sleep ()

/-- What follows is part of the history. -/
def record (e : Fin n → Event n χ) : K n χ ℓ D Unit := mine fun p s => ((), s.note (e p))

section Locks

variable [DecidableEq ℓ]

/-- `acquire` -/
def acquire (l : ℓ) : K n χ ℓ D Unit :=
  step fun t s => match s.lock l with
    | none => .done () (s.setLock l (some t)) []
    | some u => if u = t then .halt .acquire else .sleep ()

/-- `release` -/
def release (l : ℓ) : K n χ ℓ D Unit :=
  step fun t s => if s.lock l = some t then .done () (s.setLock l none) [] else .halt .release

end Locks

/-! ## The states of a process -/

/-- `sleep_prepare`, as the process table sees it. -/
def prepareOf (c : χ) (p : Fin n) (s : State n χ ℓ D) : State n χ ℓ D :=
  (s.setProc p { s.proc p with chan := some c }).note (.prepared p c)

/-- `sleep_prepare` -/
def sleepPrepare (c : χ) : K n χ ℓ D Unit := mine fun p s => ((), prepareOf c p s)

/-- `sleep`, as the process table sees it. -/
def sleepOf (p : Fin n) (s : State n χ ℓ D) : State n χ ℓ D :=
  if (s.proc p).chan ≠ none then
    (s.setProc p { s.proc p with state := .sleeping }).note (.slept p)
  else s.note (.slept p)

/-- `sleep`. A process that is marked `SLEEPING` here has called `sched`; it goes on when it is
`RUNNING` again. -/
def sleep : K n χ ℓ D Unit := mine fun p s => ((), sleepOf p s)

/-- A process that is `SLEEPING` becomes `RUNNABLE`. -/
def Proc.rouse (v : Proc n χ) : Proc n χ :=
  if v.state = .sleeping then { v with state := .runnable } else v

theorem Proc.rouse_chan (v : Proc n χ) : v.rouse.chan = v.chan := by
  unfold rouse
  split_ifs <;> rfl

theorem Proc.rouse_killed (v : Proc n χ) : v.rouse.killed = v.killed := by
  unfold rouse
  split_ifs <;> rfl

theorem Proc.rouse_awake (v : Proc n χ) : v.rouse.state ≠ .sleeping := by
  unfold rouse
  split_ifs with h
  · nofun
  · exact h

/-- One turn of the loop of `wakeup`. -/
def wakeupOf [DecidableEq χ] (c : χ) (q : Fin n) (s : State n χ ℓ D) : State n χ ℓ D :=
  if (s.proc q).chan = some c then
    (s.setProc q { s.proc q with chan := none }.rouse).note (.visited q c)
  else s.note (.visited q c)

/-- The loop of `wakeup` over the rest of the table. -/
def wakeupFrom [DecidableEq χ] (c : χ) : List (Fin n) → K n χ ℓ D Unit
  | [] => pure ()
  | q :: qs => do
    always fun s => ((), wakeupOf c q s)
    wakeupFrom c qs

/-- `wakeup` -/
def wakeup [DecidableEq χ] (c : χ) : K n χ ℓ D Unit := wakeupFrom c (List.finRange n)

/-- `killed(myproc())`, as the process table sees it. -/
def killedOf (p : Fin n) (s : State n χ ℓ D) : Bool × State n χ ℓ D :=
  ((s.proc p).killed, if (s.proc p).killed then s else s.note (.tested p))

/-- `killed(myproc())` -/
def killed : K n χ ℓ D Bool := mine killedOf

/-- What `kkill` does to the process it finds. -/
def markOf (t : Tid n) (pid : Int32) (q : Fin n) (s : State n χ ℓ D) : State n χ ℓ D :=
  (s.setProc q { s.proc q with killed := true }.rouse).note (.kill q pid t)

/-- The loop of `kkill` over the rest of the table. -/
def kkillFrom (pid : Int32) : List (Fin n) → K n χ ℓ D ℤ
  | [] => pure (-1)
  | q :: qs => do
    let found ← step fun t s =>
      if (s.proc q).pid = pid then .done true (markOf t pid q s) [] else .done false s []
    if found then pure 0 else kkillFrom pid qs

/-- `kkill` -/
def kkill (pid : Int32) : K n χ ℓ D ℤ := kkillFrom pid (List.finRange n)

/-- `setkilled(myproc())`, after a fault -/
def setkilled : K n χ ℓ D Unit :=
  mine fun p s => ((), (s.setProc p { s.proc p with killed := true }).note (.fault p))

/-- `yield`, called by a timer interrupt while process `q` runs. -/
def yield (q : Fin n) : K n χ ℓ D Unit :=
  always fun s =>
    ((), if (s.proc q).state = .running then s.setProc q { s.proc q with state := .runnable }
      else s)

/-- One turn of the loop of `scheduler`. -/
def schedule (q : Fin n) : K n χ ℓ D Unit :=
  always fun s =>
    ((), if (s.proc q).state = .runnable then s.setProc q { s.proc q with state := .running }
      else s)

section Wakeup

variable [DecidableEq χ] (c : χ) (q : Fin n) (s : State n χ ℓ D) {p : Fin n}

@[simp] theorem wakeupOf_lock : (wakeupOf c q s).lock = s.lock := by
  unfold wakeupOf
  split_ifs <;> rfl

@[simp] theorem wakeupOf_data : (wakeupOf c q s).data = s.data := by
  unfold wakeupOf
  split_ifs <;> rfl

@[simp] theorem wakeupOf_hist : (wakeupOf c q s).hist = .visited q c :: s.hist := by
  unfold wakeupOf
  split_ifs <;> rfl

theorem wakeupOf_proc_of_ne (h : p ≠ q) : (wakeupOf c q s).proc p = s.proc p := by
  unfold wakeupOf
  split_ifs <;> simp [h]

theorem wakeupOf_chan : ((wakeupOf c q s).proc q).chan =
    if (s.proc q).chan = some c then none else (s.proc q).chan := by
  unfold wakeupOf Proc.rouse
  split_ifs <;> simp

theorem wakeupOf_killed (p : Fin n) : ((wakeupOf c q s).proc p).killed = (s.proc p).killed := by
  unfold wakeupOf
  split_ifs
  · refine s.setProc_proj (fun u => u.killed) ?_ p
    exact Proc.rouse_killed _
  · rfl

/-- A process that still sleeps after a wakeup has gone past it slept on another channel. -/
theorem of_wakeupOf_sleeping (h : ((wakeupOf c q s).proc p).state = .sleeping) :
    (s.proc p).state = .sleeping ∧ ((wakeupOf c q s).proc p).chan = (s.proc p).chan := by
  revert h
  unfold wakeupOf
  split_ifs
  · intro h
    rcases update_cases h with ⟨-, hnew⟩ | ⟨hp, h⟩
    · exact absurd hnew (Proc.rouse_awake _)
    · exact ⟨h, by simp [hp]⟩
  · exact fun h => ⟨h, rfl⟩

/-- A channel that a wakeup has left. -/
theorem of_wakeupOf_chan {c' : χ} (h : ((wakeupOf c q s).proc p).chan = some c') :
    (s.proc p).chan = some c' ∧ (p = q → c' ≠ c) := by
  by_cases hpq : p = q
  · subst hpq
    rw [wakeupOf_chan] at h
    split_ifs at h with hne
    refine ⟨h, ?_⟩
    rintro - rfl
    exact hne h
  · rw [wakeupOf_proc_of_ne c q s hpq] at h
    exact ⟨h, fun he => absurd he hpq⟩

end Wakeup

theorem prepareOf_proc_self (c : χ) (p : Fin n) (s : State n χ ℓ D) :
    (prepareOf c p s).proc p = { s.proc p with chan := some c } := State.setProc_proc_self ..

theorem prepareOf_proc_of_ne (c : χ) (s : State n χ ℓ D) {p q : Fin n} (h : q ≠ p) :
    (prepareOf c p s).proc q = s.proc q := State.setProc_proc_of_ne _ _ h

/-! ## What the history says about sleeping and kills -/

section History

variable (p : Fin n)

/-- The channel `p` prepared to sleep on last. -/
def lastPrepared : List (Event n χ) → Option χ
  | .prepared q c :: h => if q = p then some c else lastPrepared h
  | _ :: h => lastPrepared h
  | [] => none

/-- Whether a `wakeup` of that channel has gone past `p` since. -/
def woken [DecidableEq χ] : List (Event n χ) → Bool
  | .prepared q _ :: h => if q = p then false else woken h
  | .visited q c :: h => (q = p ∧ lastPrepared p h = some c) || woken h
  | _ :: h => woken h
  | [] => false

/-- Whether `p` has been marked since it asked last. -/
def marked : List (Event n χ) → Bool
  | .kill q _ _ :: h => (q = p) || marked h
  | .fault q :: h => (q = p) || marked h
  | .tested q :: h => if q = p then false else marked h
  | _ :: h => marked h
  | [] => false

variable {p}

theorem marked_cons {h : List (Event n χ)} {e : Event n χ} (he : e ≠ .tested p)
    (hm : marked p h = true) : marked p (e :: h) = true := by
  cases e with
  | tested q =>
    refine (if_neg ?_).trans hm
    rintro rfl
    exact he rfl
  | kill q pid t => rw [marked, hm, Bool.or_true]
  | fault q => rw [marked, hm, Bool.or_true]
  | _ => exact hm

end History

/-! ## Locks and their holders -/

/-- Who holds which lock, as each thread knows it: a thread holds one lock at most. -/
def LockOk (s : State n χ ℓ D) (held : Tid n → Option ℓ) : Prop :=
  ∀ l t, s.lock l = some t ↔ held t = some l

namespace LockOk

variable {s : State n χ ℓ D} {held : Tid n → Option ℓ} {t u : Tid n} {l : ℓ}

theorem unique (h : LockOk s held) (ht : held t = some l) (hu : held u = some l) : t = u := by
  rw [← h] at ht hu
  exact Option.some.inj (ht.symm.trans hu)

variable [DecidableEq ℓ]

theorem acquire (h : LockOk s held) (hl : s.lock l = none) (ht : held t = none) :
    LockOk (s.setLock l (some t)) (update held t (some l)) := by
  intro l' u
  by_cases hl' : l' = l
  · subst hl'
    rw [State.setLock_lock_self]
    by_cases hu : u = t
    · simp [hu]
    · simp [update_of_ne hu, ← h l' u, hl, Ne.symm hu]
  · rw [State.setLock_lock_of_ne _ _ hl', h]
    by_cases hu : u = t
    · simp [hu, ht, Ne.symm hl']
    · rw [update_of_ne hu]

theorem release (h : LockOk s held) (hl : s.lock l = some t) :
    LockOk (s.setLock l none) (update held t none) := by
  have ht : held t = some l := (h l t).mp hl
  intro l' u
  by_cases hl' : l' = l
  · subst hl'
    rw [State.setLock_lock_self]
    by_cases hu : u = t
    · simp [hu]
    · simp [update_of_ne hu, ← h l' u, hl, Ne.symm hu]
  · rw [State.setLock_lock_of_ne _ _ hl', h]
    by_cases hu : u = t
    · simp [hu, ht, Ne.symm hl']
    · rw [update_of_ne hu]

end LockOk

/-! ## Rules

For an invariant over the state and a view for each thread. -/

section Rules

variable {γ β : Type} {inv : State n χ ℓ D → (Tid n → γ) → Prop} {t : Tid n} {p : Fin n} {g : γ}
  {Q : α → γ → Prop}

theorem safe_step {f : Tid n → State n χ ℓ D → Outcome Unit Halt (State n χ ℓ D) α}
    (h : ∀ s G, inv s G → G t = g → s.runs t → ∀ a s' w, f t s = .done a s' w →
      ∃ g', inv s' (update G t g') ∧ Q a g') : Safe (localLogic Unit Halt inv) t Q (step f) g := by
  refine safe_act fun s G hI hG b s' w hf => ?_
  by_cases hr : s.runs t
  · rw [if_pos hr] at hf
    exact h s G hI hG hr b s' w hf
  · rw [if_neg hr] at hf
    cases hf

theorem safe_always {f : State n χ ℓ D → α × State n χ ℓ D}
    (h : ∀ s G, inv s G → G t = g → s.runs t → ∃ g', inv (f s).2 (update G t g') ∧ Q (f s).1 g') :
    Safe (localLogic Unit Halt inv) t Q (always f) g := by
  refine safe_step fun s G hI hG hr a s' w hf => ?_
  cases hf
  exact h s G hI hG hr

variable {f : Fin n → State n χ ℓ D → α × State n χ ℓ D} {pid : Int32}

theorem safe_mine (h : ∀ s G, inv s G → G (.inl p) = g → (s.proc p).state = .running →
      ∃ g', inv (f p s).2 (update G (.inl p) g') ∧ Q (f p s).1 g') :
    Safe (localLogic Unit Halt inv) (.inl p) Q (mine f) g := by
  refine safe_step fun s G hI hG hr a s' w hf => ?_
  cases hf
  exact h s G hI hG hr

/-- An action that leaves the views alone. -/
theorem safe_always_same {f : State n χ ℓ D → α × State n χ ℓ D}
    (h : ∀ s G, inv s G → G t = g → inv (f s).2 G ∧ Q (f s).1 g) :
    Safe (localLogic Unit Halt inv) t Q (always f) g := by
  refine safe_always fun s G hI hG _ => ⟨g, ?_, (h s G hI hG).2⟩
  rw [← hG, update_eq_self]
  exact (h s G hI hG).1

/-- An action of a process that leaves the views alone. -/
theorem safe_mine_same (h : ∀ s G, inv s G → G (.inl p) = g → (s.proc p).state = .running →
      inv (f p s).2 G ∧ Q (f p s).1 g) : Safe (localLogic Unit Halt inv) (.inl p) Q (mine f) g := by
  refine safe_mine fun s G hI hG hr => ⟨g, ?_, (h s G hI hG hr).2⟩
  rw [← hG, update_eq_self]
  exact (h s G hI hG hr).1

/-- Code that needs `myproc()` goes no further on a processor that has none. -/
theorem safe_mine_inr {k : ℕ} : Safe (localLogic Unit Halt inv) (.inr k) Q (mine f) g := by
  refine safe_step fun s G hI hG hr a s' w hf => ?_
  cases hf

theorem safe_stay : Safe (localLogic Unit Halt inv) t Q (stay : K n χ ℓ D α) g := by
  refine safe_step fun s G hI hG hr a s' w hf => ?_
  cases hf

/-- Nor does what follows such code. -/
theorem safe_mine_inr_bind {f : Fin n → State n χ ℓ D → β × State n χ ℓ D} {k : ℕ}
    {q : β → K n χ ℓ D α} : Safe (localLogic Unit Halt inv) (.inr k) Q (mine f >>= q) g :=
  Safe.bind (Q := fun _ _ => False) safe_mine_inr nofun

/-! ### The table under an invariant that leaves the views alone -/

theorem safe_wakeupFrom_same [DecidableEq χ] {c : χ}
    (h : ∀ s G q, inv s G → inv (wakeupOf c q s) G) (qs : List (Fin n)) :
    Safe (localLogic Unit Halt inv) t (fun _ v => v = g) (wakeupFrom c qs : K n χ ℓ D Unit) g := by
  induction qs with
  | nil => rfl
  | cons q qs ih =>
    exact Safe.seq (w := g) (safe_always_same fun s G hI _ => ⟨h s G q hI, rfl⟩) fun _ => ih

/-- `kkill` returns 0 if it has marked a process, and else -1. -/
theorem safe_kkillFrom {w : γ} (h : ∀ s G q, inv s G → G t = g → (s.proc q).pid = pid →
      inv (markOf t pid q s) (update G t w)) (qs : List (Fin n)) :
    Safe (localLogic Unit Halt inv) t (fun r v => r = 0 ∧ v = w ∨ r = -1 ∧ v = g)
      (kkillFrom pid qs : K n χ ℓ D ℤ) g := by
  induction qs with
  | nil => exact .inr ⟨rfl, rfl⟩
  | cons q qs ih =>
    refine Safe.bind (Q := fun found v => v = if found then w else g)
      (safe_step fun s G hI hG hr a s' v hf => ?_) ?_
    · split_ifs at hf with hpid
      · cases hf
        exact ⟨w, h s G q hI hG hpid, rfl⟩
      · cases hf
        refine ⟨g, ?_, rfl⟩
        rw [← hG, update_eq_self]
        exact hI
    · rintro found - rfl
      cases found with
      | true => exact .inl ⟨rfl, rfl⟩
      | false => exact ih

theorem safe_kkillFrom_same
    (h : ∀ s G q, inv s G → (s.proc q).pid = pid → inv (markOf t pid q s) G) (qs : List (Fin n)) :
    Safe (localLogic Unit Halt inv) t (fun _ v => v = g) (kkillFrom pid qs : K n χ ℓ D ℤ) g := by
  refine (safe_kkillFrom (w := g) (fun s G q hI hG hpid => ?_) qs).mono ?_
  · rw [← hG, update_eq_self]
    exact h s G q hI hpid
  · rintro r v (⟨-, hv⟩ | ⟨-, hv⟩) <;> exact hv

theorem safe_killed_same (h : ∀ s G, inv s G → inv (s.note (.tested p)) G) :
    Safe (localLogic Unit Halt inv) (.inl p) (fun _ v => v = g) (killed : K n χ ℓ D Bool) g := by
  refine safe_mine_same fun s G hI _ _ => ⟨?_, rfl⟩
  simp only [killedOf]
  split_ifs
  · exact hI
  · exact h s G hI

theorem safe_yield {q : Fin n} (h : ∀ s G, inv s G → (s.proc q).state = .running →
      inv (s.setProc q { s.proc q with state := .runnable }) G) :
    Safe (localLogic Unit Halt inv) t (fun _ v => v = g) (yield q : K n χ ℓ D Unit) g := by
  refine safe_always_same fun s G hI _ => ⟨?_, rfl⟩
  split_ifs with hq
  · exact h s G hI hq
  · exact hI

theorem safe_schedule {q : Fin n} (h : ∀ s G, inv s G → (s.proc q).state = .runnable →
      inv (s.setProc q { s.proc q with state := .running }) G) :
    Safe (localLogic Unit Halt inv) t (fun _ v => v = g) (schedule q : K n χ ℓ D Unit) g := by
  refine safe_always_same fun s G hI _ => ⟨?_, rfl⟩
  split_ifs with hq
  · exact h s G hI hq
  · exact hI

section Locks

variable [DecidableEq ℓ] {l : ℓ} {Q : Unit → γ → Prop}

theorem safe_acquire (h : ∀ s G, inv s G → G t = g → s.runs t → s.lock l = none →
      ∃ g', inv (s.setLock l (some t)) (update G t g') ∧ Q () g') :
    Safe (localLogic Unit Halt inv) t Q (acquire l) g := by
  refine safe_step fun s G hI hG hr a s' w hf => ?_
  cases hl : s.lock l with
  | none =>
    rw [hl] at hf
    cases hf
    exact h s G hI hG hr hl
  | some u =>
    simp only [hl] at hf
    split at hf <;> cases hf

theorem safe_release (h : ∀ s G, inv s G → G t = g → s.runs t → s.lock l = some t →
      ∃ g', inv (s.setLock l none) (update G t g') ∧ Q () g') :
    Safe (localLogic Unit Halt inv) t Q (release l) g := by
  refine safe_step fun s G hI hG hr a s' w hf => ?_
  by_cases hl : s.lock l = some t
  · rw [if_pos hl] at hf
    cases hf
    exact h s G hI hG hr hl
  · rw [if_neg hl] at hf
    cases hf

end Locks

end Rules

end Process

end TrinityXv6
