import TrinityXv6.Process.Pipe

/-!
# Creating and ending processes

`kfork`, `kexit` and `kwait` of `kernel/proc.c`, with `allocproc`, `freeproc` and `reparent`.

What a process has of memory and of open files is whether it has it: that `kalloc`, `uvmcopy` or
`copyout` fails is an argument of the call. Opening, duplicating and closing files is left to
`TrinityXv6.Fs`. `kfork` holds the lock of the new process from `allocproc` until it has copied
everything, so that is one action. `wait_lock` is held across actions and is part of the state.

`kexit` of the first process panics, so `initproc` is a constant.
-/

namespace TrinityXv6

namespace Process

open Threads

variable {n : ℕ}

/-- `freeproc` -/
def Proc.free {χ : Type} (v : Proc n χ) : Proc n χ :=
  { v with
    trapframe := false, pagetable := false, pid := 0, chan := none, killed := false, xstate := 0,
    state := .unused }

/-- Which allocations of a `kfork` succeed. -/
structure Fate where
  trapframe : Bool
  pagetable : Bool
  uvmcopy : Bool

/-- `allocproc` on an unused slot that is going to be `v`, and then the copy of process `u` that
`kfork` makes. The result says whether all of it succeeded. -/
def forkOf (f : Fate) (pid : Int32) (u v : Proc n (Chan n)) : Bool × Proc n (Chan n) :=
  let v := { v with pid := pid, state := .used }
  if !f.trapframe then (false, v.free) else
  let v := { v with trapframe := true }
  if !f.pagetable then (false, v.free) else
  let v := { v with pagetable := true }
  if !f.uvmcopy then (false, v.free) else
  (true, { v with ofile := fun fd => if u.ofile fd then true else v.ofile fd, cwd := u.cwd })

/-- What `kfork` makes of a slot: an unused one again, or a copy of its own process. -/
theorem forkOf_cases (f : Fate) (pid : Int32) (u v : Proc n (Chan n)) :
    forkOf f pid u v = (false, v.free) ∨
      forkOf f pid u v = (true, { v with
        pid := pid, state := .used, trapframe := true, pagetable := true,
        ofile := fun fd => if u.ofile fd then true else v.ofile fd, cwd := u.cwd }) := by
  unfold forkOf
  cases f.trapframe with
  | false => exact .inl rfl
  | true =>
    cases f.pagetable with
    | false => exact .inl rfl
    | true =>
      cases f.uvmcopy with
      | false => exact .inl rfl
      | true => exact .inr rfl

/-- What `kfork` finds in a slot: nothing it can use, a failure, or a new process. -/
inductive Found where
  | taken
  | failed
  | created (pid : Int32)

/-- `kfork` of process `p` at slot `q`, up to the release of its lock. -/
def forkAt (f : Fate) (q p : Fin n) (s : Kernel n) : Found × Kernel n :=
  if (s.proc q).state = .unused then
    let pid := s.nextpid
    let r := forkOf f pid (s.proc p) (s.proc q)
    let s' := { s.setProc q r.2 with nextpid := pid + 1 }
    if r.1 then (.created pid, s'.note (.allocated (some q) p))
    else (.failed, s'.note (.allocated none p))
  else (.taken, s)

/-- The loop of `allocproc` over the rest of the table, with what `kfork` does at its end. -/
def kforkFrom (f : Fate) : List (Fin n) → KM n (Option (Fin n × Int32))
  | [] => pure none
  | q :: qs => do
    let r ← mine (forkAt f q)
    match r with
    | .taken => kforkFrom f qs
    | .failed => pure none
    | .created pid => pure (some (q, pid))

/-- `kfork` -/
def kfork (f : Fate) : KM n Int32 := do
  let r ← kforkFrom f (List.finRange n)
  match r with
  | none => pure (-1)
  | some (q, pid) => do
    acquire .wait
    mine fun p s => ((), s.setProc q { s.proc q with parent := some p })
    release .wait
    mine fun _ s => ((), (s.setProc q { s.proc q with state := .runnable }).note (.started q))
    pure pid

section Exit

variable (init : Fin n)

/-- One turn of `reparent`: whether the process was a child, which now belongs to `initproc`. -/
def adoptOf (q p : Fin n) (s : Kernel n) : Bool × Kernel n :=
  if (s.proc q).parent = some p then (true, s.setProc q { s.proc q with parent := some init })
  else (false, s)

/-- `wakeup(initproc)`, for a process that was adopted. -/
def wakeInit (adopted : Bool) : KM n Unit := if adopted then wakeup (.proc init) else pure ()

/-- `reparent`, over the rest of the table -/
def reparentFrom : List (Fin n) → KM n Unit
  | [] => pure ()
  | q :: qs => do
    let adopted ← mine (adoptOf init q)
    wakeInit init adopted
    reparentFrom qs

/-- `panic("init exiting")`, if the first process exits. -/
def checkInit : KM n Unit :=
  step fun t s => if t = .inl init then .halt .initExiting else .done () s []

/-- The loop of `kexit` that closes the files, over the rest of them. -/
def kexitFiles : List (Fin nofile) → KM n Unit
  | [] => pure ()
  | fd :: fds => do
    mine fun p s =>
      ((), s.setProc p { s.proc p with ofile := Function.update (s.proc p).ofile fd false })
    kexitFiles fds

/-- `wakeup(p->parent)` -/
def wakeParent (parent : Option (Fin n)) : KM n Unit :=
  match parent with
  | some q => wakeup (.proc q)
  | none => pure ()

/-- The end of `kexit`: the process becomes a zombie and releases `wait_lock`, under its own lock,
which the scheduler releases. -/
def exitOf (status : Int32) (p : Fin n) (s : Kernel n) : Kernel n :=
  ((s.setProc p { s.proc p with xstate := status, state := .zombie }).note
    (.exited p status)).setLock .wait none

/-- `kexit` -/
def kexit (status : Int32) : KM n Unit := do
  checkInit init
  kexitFiles (List.finRange nofile)
  mine fun p s => ((), s.setProc p { s.proc p with cwd := false })
  acquire .wait
  reparentFrom init (List.finRange n)
  let parent ← mine fun p s => ((s.proc p).parent, s)
  wakeParent parent
  mine fun p s => ((), exitOf status p s)

end Exit

/-- What `kwait` finds in a slot: another's process, a child, a zombie whose status it could not
store, or a zombie that it has freed. -/
inductive Look where
  | other
  | child
  | failed
  | reaped (pid : Int32)

/-- `kwait` of process `p` at slot `q`. `dst` is `none` for a zero address, and else whether
`copyout` succeeds. -/
def lookAt (dst : Option Bool) (q p : Fin n) (s : Kernel n) : Look × Kernel n :=
  if (s.proc q).parent = some p then
    if (s.proc q).state = .zombie then
      if dst = some false then (.failed, s.note (.unstored p q))
      else
        (.reaped (s.proc q).pid,
          (s.setProc q { s.proc q with parent := none }.free).note
            (.reaped p q (s.proc q).pid dst (dst.map fun _ => (s.proc q).xstate)))
    else (.child, s)
  else (.other, s)

/-- How a scan of `kwait` over the table ends. -/
inductive Scan where
  | ret (r : Int32)
  | kids (have_ : Bool)

/-- The inner loop of `kwait` over the rest of the table. -/
def kwaitScan (dst : Option Bool) : List (Fin n) → Bool → KM n Scan
  | [], kids => pure (.kids kids)
  | q :: qs, kids => do
    let r ← mine (lookAt dst q)
    match r with
    | .other => kwaitScan dst qs kids
    | .child => kwaitScan dst qs true
    | .failed => pure (.ret (-1))
    | .reaped pid => pure (.ret pid)

/-- `kwait` gives up `wait_lock` and returns. -/
def kwaitEnd (r : Int32) : KM n Int32 := do
  release .wait
  pure r

/-- `kwait` waits for a child. -/
def kwaitSleep : KM n Unit := do
  mine fun p s => ((), prepareOf (.proc p) p s)
  release .wait
  sleep
  acquire .wait

/-- The outer loop of `kwait`. -/
def kwaitFrom (dst : Option Bool) : ℕ → KM n Int32
  | 0 => stay
  | fuel + 1 => do
    let r ← kwaitScan dst (List.finRange n) false
    match r with
    | .ret r => kwaitEnd r
    | .kids false => kwaitEnd (-1)
    | .kids true => do
      let dead ← killed
      if dead then kwaitEnd (-1)
      else do
        kwaitSleep
        kwaitFrom dst fuel

/-- `kwait` -/
def kwait (dst : Option Bool) (fuel : ℕ) : KM n Int32 := do
  acquire .wait
  kwaitFrom dst fuel

namespace Fork

/-- What a process or a processor may do. -/
inductive Call (n : ℕ) where
  | kfork (f : Fate)
  | kexit (status : Int32)
  | kwait (dst : Option Bool) (fuel : ℕ)
  | kkill (pid : Int32)
  | setkilled
  | yield (q : Fin n)
  | schedule (q : Fin n)

/-- The program of a call. -/
def Call.code (init : Fin n) : Call n → KM n Unit
  | .kfork f => do
    let _ ← Process.kfork f
    pure ()
  | .kexit status => Process.kexit init status
  | .kwait dst fuel => do
    let r ← Process.kwait dst fuel
    record fun p => .waitRet p r
  | .kkill pid => do
    let r ← Process.kkill pid
    step fun t s => .done () (s.note (.killRet t pid r)) []
  | .setkilled => Process.setkilled
  | .yield q => Process.yield q
  | .schedule q => Process.schedule q

/-- Whether a call is allowed in a system in which, if `nz` holds, nobody kills the pid zero. -/
def Call.Allowed (nz : Prop) : Call n → Prop
  | .kkill pid => nz → pid ≠ 0
  | _ => True

/-- Processes that create, end, await and kill each other, in any order. -/
def system (init : Fin n) (nz : Prop) : System (Tid n) Unit Halt (Kernel n) where
  Call := Call n
  code := Call.code init
  may _ c _ := c.Allowed nz
  resets := False
  reset s := s
  boot := pure ()

instance (init : Fin n) (nz : Prop) [Decidable nz] (t : Tid n) (x : (system init nz).Call)
    (s : Kernel n) : Decidable ((system init nz).may t x s) := by
  change Decidable (Call.Allowed nz x)
  cases x <;> unfold Call.Allowed <;> infer_instance

/-- An unused slot. -/
def blank (n : ℕ) : Proc n (Chan n) :=
  ⟨.unused, none, false, 0, 0, none, false, false, fun _ => false, false⟩

/-- The first process, which `userinit` has made. -/
def first (n : ℕ) : Proc n (Chan n) :=
  { blank n with state := .runnable, pid := 1, trapframe := true, pagetable := true, cwd := true }

/-- The table after `userinit`. -/
def boot (init : Fin n) (d : Kdata) : Kernel n where
  proc p := if p = init then first n else blank n
  nextpid := 2
  lock _ := none
  data := d
  hist := []

end Fork

end Process

end TrinityXv6
