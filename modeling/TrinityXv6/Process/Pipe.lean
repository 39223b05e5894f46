import TrinityXv6.Process.State

/-!
# Pipes

`kernel/pipe.c`: `pipewrite`, `piperead` and `pipeclose` on one pipe, together with the other
things of the kernel that processes wait for, which the modules after this one use.

User memory is what a call can see of it: where `copyin` reads from is the byte at each offset, or
`none` where it faults, and where `copyout` writes to is whether it faults. The kernel touches the
memory of no other process during a call, so this is fixed when the call is made.

The calls are not tied to open files here. A file that is in use keeps its end of the pipe open,
so the runs of the kernel are among the runs of the model, in which ends are closed at any time.
-/

namespace TrinityXv6

namespace Process

open Threads

/-- `PIPESIZE` -/
abbrev pipeSize : UInt32 := 512

/-- `INPUT_BUF_SIZE` -/
abbrev inputBufSize : UInt32 := 128

/-- The addresses processes sleep on. -/
inductive Chan (n : ℕ) where
  /-- `&pi->nread` -/
  | nread
  /-- `&pi->nwrite` -/
  | nwrite
  /-- `&cons.r` -/
  | consr
  /-- `&ticks` -/
  | ticks
  /-- The process itself, in `kwait`. -/
  | proc (p : Fin n)
  deriving DecidableEq, Repr

/-- The spin locks that are held across other locks: `pi->lock`, `cons.lock`, `tickslock` and
`wait_lock`. -/
inductive Lock where
  | pi
  | cons
  | ticks
  | wait
  deriving DecidableEq, Repr

/-- `struct pipe` -/
structure Pipe where
  data : ℕ → UInt8
  nread : UInt32
  nwrite : UInt32
  readopen : Bool
  writeopen : Bool

/-- `cons`, the console's input buffer. -/
structure Cons where
  buf : ℕ → UInt8
  r : UInt32
  w : UInt32
  e : UInt32

/-- What the locks protect. -/
structure Kdata where
  pi : Pipe
  cons : Cons
  ticks : UInt32

/-- States of the kernel. -/
abbrev Kernel (n : ℕ) := State n (Chan n) Lock Kdata

/-- Code of the kernel over such states. -/
abbrev KM (n : ℕ) := K n (Chan n) Lock Kdata

variable {n : ℕ}

/-- Put the pipe. -/
def State.setPi (s : Kernel n) (x : Pipe) : Kernel n := s.setData { s.data with pi := x }

namespace Pipe

/-- `pi->nwrite == pi->nread + PIPESIZE` -/
def full (x : Pipe) : Bool := x.nwrite = x.nread + pipeSize

/-- `pi->nread == pi->nwrite` -/
def empty (x : Pipe) : Bool := x.nread = x.nwrite

/-- `pi->data[pi->nwrite++ % PIPESIZE] = ch` -/
def push (x : Pipe) (ch : UInt8) : Pipe :=
  { x with data := Function.update x.data (x.nwrite % pipeSize).toNat ch, nwrite := x.nwrite + 1 }

/-- `pi->data[pi->nread % PIPESIZE]` -/
def front (x : Pipe) : UInt8 := x.data (x.nread % pipeSize).toNat

/-- `pi->nread++` -/
def pop (x : Pipe) : Pipe := { x with nread := x.nread + 1 }

end Pipe

/-- The end of `pipewrite`. -/
def pipewriteEnd (k : ℤ) : KM n ℤ := do
  wakeup .nread
  record (.writeRet · k)
  release .pi
  pure k

/-- The end of `pipewrite` for a closed pipe or a killed process. -/
def pipewriteStop : KM n ℤ := do
  record (.writeRet · (-1))
  release .pi
  pure (-1)

/-- `pi->readopen == 0 || killed(pr)` -/
def pipewriteTest : KM n Bool := do
  let opened ← mine fun _ s => (s.data.pi.readopen, s)
  if opened then killed else pure true

/-- A writer that finds the pipe full. -/
def pipewriteSleep : KM n Unit := do
  wakeup .nread
  sleepPrepare .nwrite
  release .pi
  sleep
  acquire .pi

/-- The loop of `pipewrite`; `i` bytes have been copied. -/
def pipewriteFrom (src : ℕ → Option UInt8) (n' : ℤ) : ℕ → ℕ → KM n ℤ
  | 0, _ => stay
  | fuel + 1, i =>
    if (i : ℤ) < n' then do
      let stop ← pipewriteTest
      if stop then pipewriteStop
      else do
        let full ← mine fun _ s => (s.data.pi.full, s)
        if full then do
          pipewriteSleep
          pipewriteFrom src n' fuel i
        else
          match src i with
          | none => pipewriteEnd (if i = 0 then -1 else i)
          | some ch => do
            mine fun p s => ((), (s.setPi (s.data.pi.push ch)).note (.accepted p ch))
            pipewriteFrom src n' fuel (i + 1)
    else pipewriteEnd i

/-- `pipewrite` -/
def pipewrite (src : ℕ → Option UInt8) (n' : ℤ) (fuel : ℕ) : KM n ℤ := do
  record (.writeCall · src)
  acquire .pi
  pipewriteFrom src n' fuel 0

/-- The end of `piperead`. -/
def pipereadEnd (k : ℤ) : KM n ℤ := do
  wakeup .nwrite
  record (.readRet · k)
  release .pi
  pure k

/-- The second loop of `piperead`: `todo` more bytes, `i` have been copied. -/
def pipereadFrom (dst : ℕ → Bool) : ℕ → ℕ → KM n ℤ
  | 0, i => pipereadEnd i
  | todo + 1, i => do
    let empty ← mine fun _ s => (s.data.pi.empty, s)
    if empty then pipereadEnd i
    else if dst i then do
      mine fun p s => ((), (s.setPi s.data.pi.pop).note (.delivered p i s.data.pi.front))
      pipereadFrom dst todo (i + 1)
    else pipereadEnd (if i = 0 then -1 else i)

/-- A reader that finds the pipe empty. -/
def pipereadSleep : KM n Unit := do
  sleepPrepare .nread
  release .pi
  sleep
  acquire .pi

/-- The first loop of `piperead`, and what follows it. -/
def pipereadWait (dst : ℕ → Bool) (n' : ℤ) : ℕ → KM n ℤ
  | 0 => stay
  | fuel + 1 => do
    let wait ← mine fun _ s => (s.data.pi.empty && s.data.pi.writeopen, s)
    if wait then do
      let dead ← killed
      if dead then do
        record (.readRet · (-1))
        release .pi
        pure (-1)
      else do
        pipereadSleep
        pipereadWait dst n' fuel
    else pipereadFrom dst n'.toNat 0

/-- `piperead` -/
def piperead (dst : ℕ → Bool) (n' : ℤ) (fuel : ℕ) : KM n ℤ := do
  record .readCall
  acquire .pi
  pipereadWait dst n' fuel

/-- `pipeclose`. The page of a pipe with both ends closed is freed after the lock is released, and
nobody uses the pipe any more. -/
def pipeclose (writable : Bool) : KM n Unit := do
  acquire .pi
  if writable then do
    mine fun _ s => ((), s.setPi { s.data.pi with writeopen := false })
    wakeup .nread
  else do
    mine fun _ s => ((), s.setPi { s.data.pi with readopen := false })
    wakeup .nwrite
  release .pi

namespace Pipe

/-- What a process or a processor may do. -/
inductive Call (n : ℕ) where
  | pipewrite (src : ℕ → Option UInt8) (n' : ℤ) (fuel : ℕ)
  | piperead (dst : ℕ → Bool) (n' : ℤ) (fuel : ℕ)
  | pipeclose (writable : Bool)
  | kkill (pid : Int32)
  | setkilled
  | yield (q : Fin n)
  | schedule (q : Fin n)

/-- The program of a call. -/
def Call.code : Call n → KM n Unit
  | .pipewrite src n' fuel => do
    let _ ← Process.pipewrite src n' fuel
    pure ()
  | .piperead dst n' fuel => do
    let _ ← Process.piperead dst n' fuel
    pure ()
  | .pipeclose writable => Process.pipeclose writable
  | .kkill pid => do
    let _ ← Process.kkill pid
    pure ()
  | .setkilled => Process.setkilled
  | .yield q => Process.yield q
  | .schedule q => Process.schedule q

/-- Readers and writers of one pipe, kills and the scheduler, in any order. -/
def system (n : ℕ) : System (Tid n) Unit Halt (Kernel n) where
  Call := Call n
  code := Call.code
  may _ _ _ := True
  resets := False
  reset s := s
  boot := pure ()

instance (t : Tid n) (x : (system n).Call) (s : Kernel n) : Decidable ((system n).may t x s) :=
  .isTrue trivial

/-- A pipe that has just been made and processes that have not used it: nobody sleeps, no lock is
held, and the counters are equal, whatever their value. -/
structure Start (s : Kernel n) : Prop where
  lock : ∀ l, s.lock l = none
  sleeping : ∀ p, (s.proc p).state ≠ .sleeping
  empty : s.data.pi.nread = s.data.pi.nwrite
  hist : s.hist = []

end Pipe

end Process

end TrinityXv6
