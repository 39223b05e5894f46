import TrinityXv6.Process.State

/-!
# Processors, context switches and interrupts

`kernel/spinlock.c` and the part of `kernel/proc.c` and `kernel/trap.c` that moves processes between
processors: `push_off` and `pop_off`, `acquire` and `release`, `sched`, `scheduler`, `yield`,
`sleep`, `wakeup`, `kkill`, `kfork`, `kexit`, `kwait`, `forkret` and the trap handlers.

There is a kernel stack for each process and one for the scheduler of each processor. The code on a
stack runs while a processor is on that stack. `swtch` moves a processor from one stack to another
in three actions: it saves the registers, in two steps, and then loads the other context. Saving and
loading are where two processors could meet on one stack, so the state knows of each context
whether it has been saved completely.

An interrupt that comes while the processor's interrupt-enable bit is set runs its handler on top of
the code that it interrupts, on the same stack. The handler has a program of its own, and the
interrupted code waits until it is done.

An action is what a processor does between two points at which somebody else could notice. With
interrupts off the fields of a processor are its own, so `push_off` and `pop_off` are one action
each: `rc_sstatus` reads and clears the bit in one instruction.

The rest of the kernel is any sequence of operations on spin locks that is properly bracketed, with
sleeping, yielding and waking up as the kernel does them (`Sched.Work`).
-/

namespace TrinityXv6

namespace Sched

open Threads
open Function (update)
open Process (ProcState Proc)

/-- Kernel stacks: one for each process, and one for the scheduler of each processor. -/
inductive Thread (n : ℕ) (κ : Type) where
  | proc (p : Fin n)
  | sched (c : κ)
  deriving DecidableEq, Repr

/-- What runs on a stack: its own code, or an interrupt handler on top of it. -/
inductive Agent (n : ℕ) (κ : Type) where
  | main (t : Thread n κ)
  | irq (t : Thread n κ)
  deriving DecidableEq, Repr

/-- The stack. -/
def Agent.thread {n : ℕ} {κ : Type} : Agent n κ → Thread n κ
  | .main t => t
  | .irq t => t

/-- Whether it is an interrupt handler. -/
def Agent.isIrq {n : ℕ} {κ : Type} : Agent n κ → Bool
  | .main _ => false
  | .irq _ => true

/-- The spin locks: `p->lock`, `wait_lock`, `pid_lock` and all others. -/
inductive Lock (n : ℕ) (ℓ : Type) where
  | proc (p : Fin n)
  | wait
  | pid
  | other (l : ℓ)
  deriving DecidableEq, Repr

/-- Channels: the address of a process, or another one. -/
abbrev Chan (n : ℕ) (χ : Type) := Fin n ⊕ χ

/-- `struct cpu`, with the interrupt-enable bit of the processor. -/
structure Cpu (n : ℕ) where
  proc : Option (Fin n)
  noff : ℕ
  intena : Bool
  sie : Bool
  deriving DecidableEq, Repr

/-- What a `struct context` holds. -/
inductive Ctx where
  /-- Values from some earlier time, because its code runs. -/
  | live
  /-- Some registers have been saved. -/
  | saving
  /-- All registers have been saved. -/
  | saved
  /-- The start of `forkret`, from `allocproc`. -/
  | forkret
  deriving DecidableEq, Repr

/-- What the history records. -/
inductive Event (n : ℕ) (κ : Type) where
  /-- A `push_off` on a stack, with the interrupt-enable bit just before. -/
  | pushed (t : Thread n κ) (was : Bool)
  /-- A `pop_off` on a stack, with the interrupt-enable bit just after. -/
  | popped (t : Thread n κ) (now : Bool)
  /-- `allocproc` has set up the context of `p`. -/
  | born (p : Fin n)
  /-- Processor `c` loads the context of `p`: who holds `p->lock`, and what is in the context. -/
  | switched (c : κ) (p : Fin n) (holder : Option κ) (ctx : Ctx)
  /-- `freeproc` is applied to `p`: the processes of all processors, and where `p` runs. -/
  | freed (p : Fin n) (procs : κ → Option (Fin n)) (cpu : Option κ)

/-- The machine, with what has happened, latest first. -/
structure State (n : ℕ) (κ ℓ χ : Type) where
  proc : Fin n → Proc n (Chan n χ)
  nextpid : Int32
  /-- `lk->cpu` of a lock that is locked. -/
  lock : Lock n ℓ → Option κ
  cpu : κ → Cpu n
  /-- The processor that is on a stack. -/
  cpuOf : Thread n κ → Option κ
  /-- Whether the code on a stack is interrupted. -/
  trapped : Thread n κ → Bool
  ctx : Thread n κ → Ctx
  /-- Whether the process has been switched to and is at the start of `forkret`. -/
  entry : Fin n → Bool
  hist : List (Event n κ)

/-- Why the kernel stops. -/
inductive Halt where
  /-- `panic("acquire")` -/
  | acquire
  /-- `panic("release")` -/
  | release
  /-- `panic("pop_off - interruptible")` -/
  | popOffIntr
  /-- `panic("pop_off")` -/
  | popOff
  /-- `panic("sched p->lock")` -/
  | schedLock
  /-- `panic("sched locks")` -/
  | schedLocks
  /-- `panic("sched RUNNING")` -/
  | schedRunning
  /-- `panic("sched interruptible")` -/
  | schedIntr
  /-- `panic("zombie exit")` -/
  | zombieExit
  /-- `panic("init exiting")` -/
  | initExiting
  /-- `myproc()` is zero. -/
  | myproc
  /-- A context is loaded that has not been saved, or saved to by another stack. -/
  | torn
  deriving DecidableEq, Repr

/-- Code of the kernel. -/
abbrev Code (n : ℕ) (κ ℓ χ α : Type) := Prog (Agent n κ) Unit Halt (State n κ ℓ χ) α

variable {n : ℕ} {κ ℓ χ α : Type} [DecidableEq κ] [DecidableEq ℓ] [DecidableEq χ]

namespace State

/-- Put a processor's fields. -/
def setCpu (s : State n κ ℓ χ) (c : κ) (v : Cpu n) : State n κ ℓ χ :=
  { s with cpu := update s.cpu c v }

/-- Put a process into the table. -/
def setProc (s : State n κ ℓ χ) (p : Fin n) (v : Proc n (Chan n χ)) : State n κ ℓ χ :=
  { s with proc := update s.proc p v }

/-- Change the holder of a lock. -/
def setLock (s : State n κ ℓ χ) (l : Lock n ℓ) (o : Option κ) : State n κ ℓ χ :=
  { s with lock := update s.lock l o }

/-- Change a context. -/
def setCtx (s : State n κ ℓ χ) (t : Thread n κ) (x : Ctx) : State n κ ℓ χ :=
  { s with ctx := update s.ctx t x }

/-- Record an event. -/
def note (s : State n κ ℓ χ) (e : Event n κ) : State n κ ℓ χ := { s with hist := e :: s.hist }

end State

/-! ## Actions -/

/-- An action of the code on a stack, on the processor that is there. -/
def act (f : Thread n κ → κ → State n κ ℓ χ → Outcome Unit Halt (State n κ ℓ χ) α) :
    Code n κ ℓ χ α :=
  .atomic fun a s =>
    match s.cpuOf a.thread with
    | none => .sleep ()
    | some c => if s.trapped a.thread = a.isIrq then f a.thread c s else .sleep ()

/-- An action that completes. -/
def always (f : Thread n κ → κ → State n κ ℓ χ → α × State n κ ℓ χ) : Code n κ ℓ χ α :=
  act fun t c s => .done (f t c s).1 (f t c s).2 []

/-- A panic. -/
def panic (e : Halt) : Code n κ ℓ χ α := act fun _ _ _ => .halt e

/-! ## Interrupts and spin locks -/

/-- `intr_on` -/
def intrOn : Code n κ ℓ χ Unit :=
  always fun _ c s => ((), s.setCpu c { s.cpu c with sie := true })

/-- `intr_off` -/
def intrOff : Code n κ ℓ χ Unit :=
  always fun _ c s => ((), s.setCpu c { s.cpu c with sie := false })

/-- What `push_off` does to a processor. -/
def Cpu.pushOff (v : Cpu n) : Cpu n :=
  { v with
    sie := false
    intena := if v.noff = 0 then v.sie else v.intena
    noff := v.noff + 1 }

/-- `push_off` -/
def pushOff : Code n κ ℓ χ Unit :=
  always fun t c s => ((), (s.setCpu c (s.cpu c).pushOff).note (.pushed t (s.cpu c).sie))

/-- What `pop_off` does to a processor whose interrupts are off. -/
def Cpu.popOff (v : Cpu n) : Cpu n :=
  { v with
    noff := v.noff - 1
    sie := v.noff - 1 = 0 && v.intena }

/-- `pop_off` -/
def popOff : Code n κ ℓ χ Unit :=
  act fun t c s =>
    if (s.cpu c).sie then .halt .popOffIntr
    else if (s.cpu c).noff < 1 then .halt .popOff
    else .done () ((s.setCpu c (s.cpu c).popOff).note (.popped t (s.cpu c).popOff.sie)) []

/-- `acquire` after its `push_off`. A lock that another processor holds is tried again. -/
def tryLock (l : Lock n ℓ) : Code n κ ℓ χ Unit :=
  act fun _ c s =>
    match s.lock l with
    | none => .done () (s.setLock l (some c)) []
    | some c' => if c' = c then .halt .acquire else .sleep ()

/-- `acquire` -/
def acquire (l : Lock n ℓ) : Code n κ ℓ χ Unit := do
  pushOff
  tryLock l

/-- `release` up to its `pop_off`. -/
def unlock (l : Lock n ℓ) : Code n κ ℓ χ Unit :=
  act fun _ c s =>
    if s.lock l = some c then .done () (s.setLock l none) [] else .halt .release

/-- `release` -/
def release (l : Lock n ℓ) : Code n κ ℓ χ Unit := do
  unlock l
  popOff

/-- `mycpu` -/
def mycpu : Code n κ ℓ χ κ := always fun _ c s => (c, s)

/-- `myproc` -/
def myproc : Code n κ ℓ χ (Option (Fin n)) := do
  pushOff
  let p ← always fun _ c s => ((s.cpu c).proc, s)
  popOff
  pure p

/-- `myproc`, where it is not expected to be zero. -/
def mine : Code n κ ℓ χ (Fin n) := do
  match ← myproc with
  | some p => pure p
  | none => panic .myproc

/-! ## Switching -/

/-- `swtch` begins to save the registers of the code on the stack `t`. -/
def saveStart (t : Thread n κ) : Code n κ ℓ χ Unit :=
  act fun u _ s => if t = u then .done () (s.setCtx t .saving) [] else .halt .torn

/-- All registers are saved. -/
def saveDone (t : Thread n κ) : Code n κ ℓ χ Unit :=
  act fun u _ s => if t = u then .done () (s.setCtx t .saved) [] else .halt .torn

/-- Processor `c` goes from the stack `t` to the stack `u`. -/
def State.goto (s : State n κ ℓ χ) (c : κ) (t u : Thread n κ) : State n κ ℓ χ :=
  { s with
    cpuOf := update (update s.cpuOf t none) u (some c)
    ctx := update s.ctx u .live
    entry := fun p => if u = .proc p then s.ctx u = .forkret else s.entry p
    hist := match u with
      | .proc p => .switched c p (s.lock (.proc p)) (s.ctx u) :: s.hist
      | .sched _ => s.hist }

/-- `swtch` loads the context of the stack `u`. -/
def load (u : Thread n κ) : Code n κ ℓ χ Unit :=
  act fun t c s =>
    if s.ctx u = .saved ∨ s.ctx u = .forkret then .done () (s.goto c t u) [] else .halt .torn

/-- `swtch` -/
def swtch (t u : Thread n κ) : Code n κ ℓ χ Unit := do
  saveStart t
  saveDone t
  load u

/-- Whether what has been switched to is the start of `forkret`, so that the code that called
`swtch` is no more. -/
def replaced : Code n κ ℓ χ Bool :=
  always fun t _ s => (match t with | .proc p => s.entry p | .sched _ => false, s)

/-- The tests at the start of `sched`, then `mycpu()` and its `intena`. -/
def schedCheck (p : Fin n) : Code n κ ℓ χ (κ × Bool) :=
  act fun _ c s =>
    if s.lock (.proc p) ≠ some c then .halt .schedLock
    else if (s.cpu c).noff ≠ 1 then .halt .schedLocks
    else if (s.proc p).state = .running then .halt .schedRunning
    else if (s.cpu c).sie then .halt .schedIntr
    else .done (c, (s.cpu c).intena) s []

/-- `mycpu()->intena = b` -/
def setIntena (b : Bool) : Code n κ ℓ χ Unit :=
  always fun _ c s => ((), s.setCpu c { s.cpu c with intena := b })

/-- `sched`. The result says that the caller is no more. -/
def sched : Code n κ ℓ χ Bool := do
  let p ← mine
  let r ← schedCheck p
  swtch (.proc p) (.sched r.1)
  let gone ← replaced
  if gone then pure true
  else do
    setIntena r.2
    pure false

/-- `sched`, where the caller goes on. -/
def schedAndReturn : Code n κ ℓ χ Unit := do
  let gone ← sched
  if gone then panic .torn else pure ()

/-- Change a process. -/
def edit (p : Fin n) (f : Proc n (Chan n χ) → Proc n (Chan n χ)) : Code n κ ℓ χ Unit :=
  always fun _ _ s => ((), s.setProc p (f (s.proc p)))

/-- Look at a process. -/
def look (p : Fin n) (f : Proc n (Chan n χ) → α) : Code n κ ℓ χ α :=
  always fun _ _ s => (f (s.proc p), s)

/-- The process itself changes its state, before `sched`. -/
def setState (p : Fin n) (st : ProcState) : Code n κ ℓ χ Unit :=
  edit p fun v => { v with state := st }

/-- `yield` -/
def yield : Code n κ ℓ χ Unit := do
  let p ← mine
  acquire (.proc p)
  setState p .runnable
  schedAndReturn
  release (.proc p)

/-- `sleep_prepare` of a channel that is not zero -/
def sleepPrepare (x : Chan n χ) : Code n κ ℓ χ Unit := do
  let p ← mine
  acquire (.proc p)
  edit p fun v => { v with chan := some x }
  release (.proc p)

/-- `sleep` between its locks -/
def sleepLocked (p : Fin n) : Code n κ ℓ χ Unit := do
  let chan ← look p fun v => v.chan
  match chan with
  | some _ => do
    setState p .sleeping
    schedAndReturn
  | none => pure ()

/-- `sleep` -/
def sleep : Code n κ ℓ χ Unit := do
  let p ← mine
  acquire (.proc p)
  sleepLocked p
  release (.proc p)

/-- What `wakeup` does to a process. -/
def wake (x : Option (Chan n χ)) (v : Proc n (Chan n χ)) : Proc n (Chan n χ) :=
  if v.chan = x then { v with chan := none }.rouse else v

/-- The loop of `wakeup` over the rest of the table. -/
def wakeupFrom (x : Option (Chan n χ)) : List (Fin n) → Code n κ ℓ χ Unit
  | [] => pure ()
  | p :: ps => do
    acquire (.proc p)
    edit p (wake x)
    release (.proc p)
    wakeupFrom x ps

/-- `wakeup` -/
def wakeup (x : Option (Chan n χ)) : Code n κ ℓ χ Unit := wakeupFrom x (List.finRange n)

/-- The loop of `kkill` over the rest of the table. -/
def kkillFrom (pid : Int32) : List (Fin n) → Code n κ ℓ χ Int32
  | [] => pure (-1)
  | p :: ps => do
    acquire (.proc p)
    let found ← look p fun v => decide (v.pid = pid)
    if found then do
      edit p fun v => { v with killed := true }.rouse
      release (.proc p)
      pure 0
    else do
      release (.proc p)
      kkillFrom pid ps

/-- `kkill` -/
def kkill (pid : Int32) : Code n κ ℓ χ Int32 := kkillFrom pid (List.finRange n)

/-- `setkilled` -/
def setkilled (p : Fin n) : Code n κ ℓ χ Unit := do
  acquire (.proc p)
  edit p fun v => { v with killed := true }
  release (.proc p)

/-- `killed` -/
def killed (p : Fin n) : Code n κ ℓ χ Bool := do
  acquire (.proc p)
  let k ← look p fun v => v.killed
  release (.proc p)
  pure k

/-! ## The scheduler -/

/-- `if (p->state == RUNNABLE)`, then `p->state = RUNNING` and `c->proc = p` -/
def pick (p : Fin n) : Code n κ ℓ χ Bool :=
  always fun _ c s =>
    if (s.proc p).state = .runnable then
      (true, (s.setProc p { s.proc p with state := .running }).setCpu c
        { s.cpu c with proc := some p })
    else (false, s)

/-- `mycpu()->intena = 0` and `c->proc = 0` -/
def unpick : Code n κ ℓ χ Unit :=
  always fun _ c s => ((), s.setCpu c { s.cpu c with intena := false, proc := none })

/-- The scheduler of `c` runs a process that it has picked. -/
def dispatch (c : κ) (p : Fin n) (picked : Bool) : Code n κ ℓ χ Unit :=
  if picked then do
    swtch (.sched c) (.proc p)
    unpick
  else pure ()

/-- The loop of `scheduler` over the rest of the table. -/
def schedulerFrom (c : κ) : List (Fin n) → Code n κ ℓ χ Unit
  | [] => pure ()
  | p :: ps => do
    acquire (.proc p)
    let picked ← pick p
    dispatch c p picked
    release (.proc p)
    schedulerFrom c ps

/-- One turn of the outer loop of `scheduler`. -/
def scheduler : Code n κ ℓ χ Unit := do
  let c ← mycpu
  intrOn
  intrOff
  schedulerFrom c (List.finRange n)

/-! ## The rest of the kernel -/

/-- What other code of the kernel does, as far as processors and processes are concerned. -/
inductive Op (ℓ χ : Type) where
  | pushOff
  | popOff
  | acquire (l : ℓ)
  | release (l : ℓ)
  | wakeup (x : χ)
  | kkill (pid : Int32)
  | sleepPrepare (x : χ)
  | sleep
  | yield
  deriving DecidableEq, Repr

/-- How many `push_off`s are open after an operation, and which locks are held. There is none if
the operation is out of place: a `pop_off` without `push_off`, a lock taken twice or given up
without being held, or sleeping with interrupts off. -/
def Op.after : Op ℓ χ → ℕ × List ℓ → Option (ℕ × List ℓ)
  | .pushOff, (d, H) => some (d + 1, H)
  | .popOff, (d, H) => if H.length < d then some (d - 1, H) else none
  | .acquire l, (d, H) => if l ∈ H then none else some (d + 1, l :: H)
  | .release l, (d, H) => if l ∈ H then some (d - 1, H.erase l) else none
  | .wakeup _, dH => some dH
  | .kkill _, dH => some dH
  | .sleepPrepare _, dH => some dH
  | .sleep, (d, H) => if d = 0 then some (d, H) else none
  | .yield, (d, H) => if d = 0 then some (d, H) else none

/-- The same, after a sequence of operations. -/
def Op.afterAll : List (Op ℓ χ) → ℕ × List ℓ → Option (ℕ × List ℓ)
  | [], dH => some dH
  | o :: os, dH => (o.after dH).bind (afterAll os)

/-- Whether an operation is about interrupts and spin locks only. -/
def Op.quiet : Op ℓ χ → Bool
  | .pushOff => true
  | .popOff => true
  | .acquire _ => true
  | .release _ => true
  | _ => false

/-- Whether an operation neither sleeps nor needs a process. -/
def Op.brief : Op ℓ χ → Bool
  | .sleepPrepare _ => false
  | .sleep => false
  | .yield => false
  | _ => true

/-- Code of the kernel that leaves no `push_off` open and no lock held. -/
structure Work (ℓ χ : Type) [DecidableEq ℓ] where
  ops : List (Op ℓ χ)
  balanced : Op.afterAll ops (0, []) = some (0, [])

/-- The code of an operation. -/
def Op.code : Op ℓ χ → Code n κ ℓ χ Unit
  | .pushOff => Sched.pushOff
  | .popOff => Sched.popOff
  | .acquire l => Sched.acquire (.other l)
  | .release l => Sched.release (.other l)
  | .wakeup x => Sched.wakeup (some (.inr x))
  | .kkill pid => do
    let _ ← Sched.kkill pid
    pure ()
  | .sleepPrepare x => Sched.sleepPrepare (.inr x)
  | .sleep => Sched.sleep
  | .yield => Sched.yield

/-- The code of a sequence of operations. -/
def run : List (Op ℓ χ) → Code n κ ℓ χ Unit
  | [] => pure ()
  | o :: os => do
    o.code
    run os

/-! ## Creating and ending processes -/

/-- `freeproc` -/
def freeproc (p : Fin n) : Code n κ ℓ χ Unit :=
  always fun _ _ s =>
    ((), (s.setProc p { s.proc p with
      trapframe := false, pagetable := false, pid := 0, chan := none, killed := false, xstate := 0,
      state := .unused }).note (.freed p (fun c => (s.cpu c).proc) (s.cpuOf (.proc p))))

/-- `allocpid` -/
def allocpid : Code n κ ℓ χ Int32 := do
  acquire .pid
  let pid ← always fun _ _ s => (s.nextpid, { s with nextpid := s.nextpid + 1 })
  release .pid
  pure pid

/-- What happens in a `kfork`: which allocations succeed, and the locking that allocating memory and
duplicating files does. -/
structure Fork (ℓ χ : Type) [DecidableEq ℓ] where
  trapframe : Bool
  pagetable : Bool
  uvmcopy : Bool
  mem : Work ℓ χ
  dup : Work ℓ χ
  mem_quiet : mem.ops.all Op.quiet = true
  dup_quiet : dup.ops.all Op.quiet = true

/-- `memset(&p->context, 0, ...)` and `p->context.ra = forkret` -/
def setContext (p : Fin n) : Code n κ ℓ χ Unit :=
  always fun _ _ s => ((), (s.setCtx (.proc p) .forkret).note (.born p))

/-- `freeproc`, and the release of the lock that `allocproc` took. -/
def giveUp (p : Fin n) : Code n κ ℓ χ Unit := do
  freeproc p
  release (.proc p)

/-- `allocproc` from its label `found` on. -/
def allocFound (f : Fork ℓ χ) (p : Fin n) : Code n κ ℓ χ (Option (Fin n)) := do
  let pid ← allocpid
  edit p fun v => { v with pid := pid, state := .used }
  run f.mem.ops
  if f.trapframe then do
    edit p fun v => { v with trapframe := true }
    run f.mem.ops
    if f.pagetable then do
      edit p fun v => { v with pagetable := true }
      setContext p
      pure (some p)
    else do
      giveUp p
      pure none
  else do
    giveUp p
    pure none

/-- The loop of `allocproc` over the rest of the table. -/
def allocprocFrom (f : Fork ℓ χ) : List (Fin n) → Code n κ ℓ χ (Option (Fin n))
  | [] => pure none
  | p :: ps => do
    acquire (.proc p)
    let unused ← look p fun v => decide (v.state = .unused)
    if unused then allocFound f p
    else do
      release (.proc p)
      allocprocFrom f ps

/-- `kfork` after `allocproc` has found a slot. -/
def kforkInto (f : Fork ℓ χ) (p np : Fin n) : Code n κ ℓ χ Int32 := do
  run f.mem.ops
  if f.uvmcopy then do
    run f.dup.ops
    let u ← look p id
    edit np fun v =>
      { v with ofile := fun fd => if u.ofile fd then true else v.ofile fd, cwd := u.cwd }
    let pid ← look np fun v => v.pid
    release (.proc np)
    acquire .wait
    edit np fun v => { v with parent := some p }
    release .wait
    acquire (.proc np)
    edit np fun v => { v with state := .runnable }
    release (.proc np)
    pure pid
  else do
    giveUp np
    pure (-1)

/-- `kfork` -/
def kfork (f : Fork ℓ χ) : Code n κ ℓ χ Int32 := do
  let p ← mine
  let r ← allocprocFrom f (List.finRange n)
  match r with
  | some np => kforkInto f p np
  | none => pure (-1)

/-- The loop of `reparent` over the rest of the table. -/
def reparentFrom (init p : Fin n) : List (Fin n) → Code n κ ℓ χ Unit
  | [] => pure ()
  | q :: qs => do
    let child ← look q fun v => decide (v.parent = some p)
    if child then do
      edit q fun v => { v with parent := some init }
      wakeup (some (.inl init))
      reparentFrom init p qs
    else reparentFrom init p qs

/-- `kexit` from `acquire(&p->lock)` on. -/
def kexitLast (status : Int32) (p : Fin n) : Code n κ ℓ χ Unit := do
  acquire (.proc p)
  edit p fun v => { v with xstate := status, state := .zombie }
  release .wait
  let gone ← sched
  if gone then pure () else panic .zombieExit

/-- `kexit`, with the work of closing the files. -/
def kexit (init : Fin n) (close : Work ℓ χ) (status : Int32) : Code n κ ℓ χ Unit := do
  let p ← mine
  if p = init then panic .initExiting
  else do
    run close.ops
    edit p fun v => { v with ofile := fun _ => false, cwd := false }
    acquire .wait
    reparentFrom init p (List.finRange n)
    let parent ← look p fun v => v.parent
    wakeup (parent.map .inl)
    kexitLast status p

/-- What a turn of `kwait` over the table finds. -/
inductive Scan where
  /-- It has returned, and given up `wait_lock`. -/
  | ret (r : Int32)
  | kids (havekids : Bool)

/-- `kwait` with a child that has ended, and its lock. -/
def kwaitReap (pp : Fin n) (fault : Bool) : Code n κ ℓ χ Int32 := do
  let pid ← look pp fun v => v.pid
  if fault then do
    release (.proc pp)
    release .wait
    pure (-1)
  else do
    edit pp fun v => { v with parent := none }
    freeproc pp
    release (.proc pp)
    release .wait
    pure pid

/-- The loop of `kwait` over the rest of the table. -/
def kwaitFrom (p : Fin n) (copy : Work ℓ χ) (fault : Bool) : (havekids : Bool) →
    List (Fin n) → Code n κ ℓ χ Scan
  | havekids, [] => pure (.kids havekids)
  | havekids, pp :: pps => do
    let child ← look pp fun v => decide (v.parent = some p)
    if child then do
      acquire (.proc pp)
      let zombie ← look pp fun v => decide (v.state = .zombie)
      if zombie then do
        run copy.ops
        let r ← kwaitReap pp fault
        pure (.ret r)
      else do
        release (.proc pp)
        kwaitFrom p copy fault true pps
    else kwaitFrom p copy fault havekids pps

/-- The outer loop of `kwait`, for at most so many turns, with `wait_lock` held. A call that has
used up its turns goes no further. -/
def kwaitLoop (p : Fin n) (copy : Work ℓ χ) (fault : Bool) : (turns : ℕ) → Code n κ ℓ χ Int32
  | 0 => act fun _ _ _ => .sleep ()
  | turns + 1 => do
    let r ← kwaitFrom p copy fault false (List.finRange n)
    match r with
    | .ret r => pure r
    | .kids havekids => do
      let k ← if havekids then killed p else pure true
      if k then do
        release .wait
        pure (-1)
      else do
        sleepPrepare (.inl p)
        release .wait
        sleep
        acquire .wait
        kwaitLoop p copy fault turns

/-- `kwait`. Copying the status out may allocate memory, and may fail. -/
def kwait (copy : Work ℓ χ) (fault : Bool) (turns : ℕ) : Code n κ ℓ χ Int32 := do
  let p ← mine
  acquire .wait
  kwaitLoop p copy fault turns

/-! ## Traps -/

/-- A trap from user mode: the hardware turns interrupts off. -/
def trap : Code n κ ℓ χ Unit :=
  act fun t c s =>
    match t with
    | .proc p =>
      if s.entry p then .sleep () else .done () (s.setCpu c { s.cpu c with sie := false }) []
    | .sched _ => .sleep ()

/-- `sret` to user mode: the hardware turns interrupts on. -/
def sret : Code n κ ℓ χ Unit :=
  always fun _ c s => ((), s.setCpu c { s.cpu c with sie := true })

/-- `prepare_return`, as far as interrupts are concerned, and the return to user mode. -/
def userret : Code n κ ℓ χ Unit := do
  intrOff
  sret

/-- The context that `allocproc` made begins to run. -/
def enterForkret : Code n κ ℓ χ Unit :=
  act fun t _ s =>
    match t with
    | .proc p =>
      if s.entry p then .done () { s with entry := update s.entry p false } []
      else .sleep ()
    | .sched _ => .sleep ()

/-- `forkret`. The first process mounts the file system and runs `/init`. -/
def forkret (first : Option (Work ℓ χ)) : Code n κ ℓ χ Unit := do
  enterForkret
  let p ← mine
  release (.proc p)
  match first with
  | some w => do
    run w.ops
    userret
  | none => userret

/-- The system calls. -/
inductive Syscall (ℓ χ : Type) [DecidableEq ℓ] where
  | kfork (f : Fork ℓ χ)
  | kexit (status : Int32)
  | kwait (copy : Work ℓ χ) (quiet : copy.ops.all Op.quiet = true) (fault : Bool) (turns : ℕ)
  | other (w : Work ℓ χ)

/-- Why there is a trap from user mode. -/
inductive Cause (ℓ χ : Type) [DecidableEq ℓ] where
  | syscall (c : Syscall ℓ χ)
  | device (w : Work ℓ χ) (brief : w.ops.all Op.brief = true) (timer : Bool)
  | fault (w : Work ℓ χ) (brief : w.ops.all Op.brief = true) (handled : Bool)

/-- `usertrap` after the trap has been dealt with. -/
def usertrapLast (init : Fin n) (close : Work ℓ χ) (p : Fin n) (timer : Bool) :
    Code n κ ℓ χ Unit := do
  let k ← killed p
  if k then kexit init close (-1)
  else do
    if timer then do
      yield
      userret
    else userret

/-- `syscall` -/
def syscall (init : Fin n) (close : Work ℓ χ) (p : Fin n) : Syscall ℓ χ → Code n κ ℓ χ Unit
  | .kfork f => do
    let _ ← kfork f
    usertrapLast init close p false
  | .kexit status => kexit init close status
  | .kwait copy _ fault turns => do
    let _ ← kwait copy fault turns
    usertrapLast init close p false
  | .other w => do
    run w.ops
    usertrapLast init close p false

/-- `usertrap` -/
def usertrap (init : Fin n) (close : Work ℓ χ) (cause : Cause ℓ χ) : Code n κ ℓ χ Unit := do
  trap
  let p ← mine
  match cause with
  | .syscall c => do
    let k ← killed p
    if k then kexit init close (-1)
    else do
      intrOn
      syscall init close p c
  | .device w _ timer => do
    run w.ops
    usertrapLast init close p timer
  | .fault w _ handled => do
    run w.ops
    if handled then usertrapLast init close p false
    else do
      setkilled p
      usertrapLast init close p false

/-- An interrupt in the kernel: the hardware turns interrupts off. -/
def enterIrq : Code n κ ℓ χ Unit :=
  .atomic fun a s =>
    match s.cpuOf a.thread with
    | none => .sleep ()
    | some c =>
      if s.trapped a.thread = false ∧ (s.cpu c).sie = true then
        .done () { s.setCpu c { s.cpu c with sie := false } with
          trapped := update s.trapped a.thread true } []
      else .sleep ()

/-- The return from an interrupt in the kernel: `sret` turns interrupts on, as they were. -/
def leaveIrq : Code n κ ℓ χ Unit :=
  always fun t c s =>
    ((), { s.setCpu c { s.cpu c with sie := true } with
      trapped := update s.trapped t false })

/-- `if (which_dev == 2 && myproc() != 0) yield();` -/
def tick (timer : Bool) : Code n κ ℓ χ Unit :=
  if timer then do
    match ← myproc with
    | some _ => yield
    | none => pure ()
  else pure ()

/-- `kerneltrap` -/
def kerneltrap (w : Work ℓ χ) (timer : Bool) : Code n κ ℓ χ Unit := do
  enterIrq
  run w.ops
  tick timer
  leaveIrq

/-! ## The system -/

/-- What runs: the scheduler on its stacks, `forkret` and `usertrap` on those of the processes, and
`kerneltrap` on top of either. -/
inductive Call (ℓ χ : Type) [DecidableEq ℓ] where
  | scheduler
  | forkret (first : Option (Work ℓ χ))
  | usertrap (close : Work ℓ χ) (cause : Cause ℓ χ)
  | kerneltrap (w : Work ℓ χ) (brief : w.ops.all Op.brief = true) (timer : Bool)

/-- The code of a call. -/
def Call.code (init : Fin n) : Call ℓ χ → Code n κ ℓ χ Unit
  | .scheduler => Sched.scheduler
  | .forkret first => Sched.forkret first
  | .usertrap close cause => Sched.usertrap init close cause
  | .kerneltrap w _ timer => Sched.kerneltrap w timer

/-- Who makes which call. -/
def Call.by : Call ℓ χ → Agent n κ → Bool
  | .scheduler, .main (.sched _) => true
  | .forkret _, .main (.proc _) => true
  | .usertrap .., .main (.proc _) => true
  | .kerneltrap .., .irq _ => true
  | _, _ => false

/-- Any number of processors, and `n` slots for processes. -/
def system (κ ℓ χ : Type) [DecidableEq κ] [DecidableEq ℓ] [DecidableEq χ] (init : Fin n) :
    System (Agent n κ) Unit Halt (State n κ ℓ χ) where
  Call := Call ℓ χ
  code := Call.code init
  may a c _ := c.by a = true
  resets := False
  reset := id
  boot := .ret ()

/-- A slot that has not been used. -/
def blank : Proc n (Chan n χ) where
  state := .unused
  chan := none
  killed := false
  xstate := 0
  pid := 0
  parent := none
  trapframe := false
  pagetable := false
  ofile _ := false
  cwd := false

/-- The machine after `userinit`, when every processor has got to `scheduler`. -/
def start (κ ℓ χ : Type) (init : Fin n) : State n κ ℓ χ where
  proc p := if p = init then
    { blank with state := .runnable, pid := 1, trapframe := true, pagetable := true, cwd := true }
    else blank
  nextpid := 2
  lock _ := none
  cpu _ := ⟨none, 0, false, false⟩
  cpuOf t := match t with
    | .proc _ => none
    | .sched c => some c
  trapped _ := false
  ctx t := match t with
    | .proc p => if p = init then .forkret else .live
    | .sched _ => .live
  entry _ := false
  hist := [.born init]

end Sched

end TrinityXv6
