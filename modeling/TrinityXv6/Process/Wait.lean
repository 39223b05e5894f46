import TrinityXv6.Process.Fork

/-!
# Waits that a kill interrupts

The console, the clock, and the system with all the waits that ask `killed` in their loops:
`consoleread` and `consoleintr` of `kernel/console.c`, `sys_pause` of `kernel/sysproc.c` and
`clockintr` of `kernel/trap.c`, next to the pipes and `kwait`.

What the console prints is left out. An input character is a byte, as the UART delivers it. The
editing of a line is a function on the buffer, because `cons.lock` is held during all of it.
-/

namespace TrinityXv6

namespace Process

open Threads

variable {n : ℕ}

/-- Put the console's buffer. -/
def State.setCons (s : Kernel n) (x : Cons) : Kernel n := s.setData { s.data with cons := x }

/-- Put the clock. -/
def State.setTicks (s : Kernel n) (x : UInt32) : Kernel n := s.setData { s.data with ticks := x }

/-- One turn of a wait: `sleep_prepare`, and from there to the next hold of the lock. -/
def nap (c : Chan n) (l : Lock) : KM n Unit := do
  sleepPrepare c
  release l
  sleep
  acquire l

/-! ## The console -/

/-- `C('D')`, end of file -/
abbrev ctrlD : UInt8 := 4

/-- `C('H')`, backspace -/
abbrev ctrlH : UInt8 := 8

/-- `C('P')`, print the processes -/
abbrev ctrlP : UInt8 := 16

/-- `C('U')`, kill the line -/
abbrev ctrlU : UInt8 := 21

/-- `'\x7f'`, delete -/
abbrev del : UInt8 := 127

/-- `'\n'` -/
abbrev newline : UInt8 := 10

/-- `'\r'` -/
abbrev carriageReturn : UInt8 := 13

namespace Cons

/-- `cons.buf[cons.r % INPUT_BUF_SIZE]` -/
def front (x : Cons) : UInt8 := x.buf (x.r % inputBufSize).toNat

/-- `cons.r++` -/
def next (x : Cons) : Cons := { x with r := x.r + 1 }

/-- `cons.r--` -/
def unread (x : Cons) : Cons := { x with r := x.r - 1 }

/-- The loop that erases a line; it has at most `cons.e - cons.w` turns. -/
def eraseLine : ℕ → Cons → Cons
  | 0, x => x
  | turns + 1, x =>
    if x.e ≠ x.w ∧ x.buf ((x.e - 1) % inputBufSize).toNat ≠ newline then
      eraseLine turns { x with e := x.e - 1 }
    else x

/-- `cons.buf[cons.e++ % INPUT_BUF_SIZE] = c` -/
def type (x : Cons) (c : UInt8) : Cons :=
  { x with buf := Function.update x.buf (x.e % inputBufSize).toNat c, e := x.e + 1 }

/-- What `consoleintr` does to the buffer, and whether it wakes the readers. -/
def intr (c : UInt8) (x : Cons) : Bool × Cons :=
  if c = ctrlP then (false, x)
  else if c = ctrlU then (false, eraseLine (x.e - x.w).toNat x)
  else if c = ctrlH ∨ c = del then (false, if x.e ≠ x.w then { x with e := x.e - 1 } else x)
  else if c ≠ 0 ∧ x.e - x.r < inputBufSize then
    let c := if c = carriageReturn then newline else c
    let x := x.type c
    if c = newline ∨ c = ctrlD ∨ x.e - x.r = inputBufSize then (true, { x with w := x.e })
    else (false, x)
  else (false, x)

end Cons

/-- The end of `consoleread`. -/
def consolereadEnd (i : ℕ) : KM n ℤ := do
  release .cons
  pure i

/-- `consoleread` finds an end of file, which it leaves in the buffer if it has read something. -/
def consolereadEof (i : ℕ) : KM n ℤ := do
  mine fun _ s => ((), if 0 < i then s.setCons s.data.cons.unread else s)
  consolereadEnd i

/-- The loops of `consoleread`; `i` bytes have been copied. -/
def consolereadFrom (dst : ℕ → Bool) (n' : ℤ) : ℕ → ℕ → KM n ℤ
  | 0, _ => stay
  | fuel + 1, i =>
    if (i : ℤ) < n' then do
      let wait ← mine fun _ s => (decide (s.data.cons.r = s.data.cons.w), s)
      if wait then do
        let dead ← killed
        if dead then do
          release .cons
          pure (-1)
        else do
          nap .consr .cons
          consolereadFrom dst n' fuel i
      else do
        let c ← mine fun _ s => (s.data.cons.front, s.setCons s.data.cons.next)
        if c = ctrlD then consolereadEof i
        else if dst i then
          if c = newline then consolereadEnd (i + 1) else consolereadFrom dst n' fuel (i + 1)
        else consolereadEnd i
    else consolereadEnd i

/-- `consoleread` -/
def consoleread (dst : ℕ → Bool) (n' : ℤ) (fuel : ℕ) : KM n ℤ := do
  acquire .cons
  consolereadFrom dst n' fuel 0

/-- `wakeup(&cons.r)`, for a line that is complete. -/
def wakeCons (wake : Bool) : KM n Unit := if wake then wakeup .consr else pure ()

/-- `consoleintr` -/
def consoleintr (c : UInt8) : KM n Unit := do
  acquire .cons
  let wake ← always fun s => ((s.data.cons.intr c).1, s.setCons (s.data.cons.intr c).2)
  wakeCons wake
  release .cons

/-! ## The clock -/

/-- The loop of `sys_pause`. -/
def sysPauseFrom (ticks0 : UInt32) (n' : ℤ) : ℕ → KM n ℤ
  | 0 => stay
  | fuel + 1 => do
    let wait ← mine fun _ s => (decide ((s.data.ticks - ticks0).toNat < n'.toNat), s)
    if wait then do
      let dead ← killed
      if dead then do
        release .ticks
        pure (-1)
      else do
        nap .ticks .ticks
        sysPauseFrom ticks0 n' fuel
    else do
      release .ticks
      pure 0

/-- `sys_pause`; a negative number of ticks is none. -/
def sysPause (n' : ℤ) (fuel : ℕ) : KM n ℤ := do
  acquire .ticks
  let ticks0 ← mine fun _ s => (s.data.ticks, s)
  sysPauseFrom ticks0 n' fuel

/-- `clockintr`, on one of the processors -/
def clockintr (cpu : ℕ) : KM n Unit :=
  if cpu = 0 then do
    acquire .ticks
    always fun s => ((), s.setTicks (s.data.ticks + 1))
    wakeup .ticks
    release .ticks
  else pure ()

namespace Wait

/-- What a process or a processor may do. -/
inductive Call (n : ℕ) where
  | pipewrite (src : ℕ → Option UInt8) (n' : ℤ) (fuel : ℕ)
  | piperead (dst : ℕ → Bool) (n' : ℤ) (fuel : ℕ)
  | pipeclose (writable : Bool)
  | consoleread (dst : ℕ → Bool) (n' : ℤ) (fuel : ℕ)
  | consoleintr (c : UInt8)
  | sysPause (n' : ℤ) (fuel : ℕ)
  | clockintr (cpu : ℕ)
  | kfork (f : Fate)
  | kexit (status : Int32)
  | kwait (dst : Option Bool) (fuel : ℕ)
  | kkill (pid : Int32)
  | setkilled
  | yield (q : Fin n)
  | schedule (q : Fin n)

/-- The program of a call whose result nobody looks at. -/
def ignore {α : Type} (code : KM n α) : KM n Unit := do
  let _ ← code
  pure ()

/-- The program of a call. -/
def Call.code (init : Fin n) : Call n → KM n Unit
  | .pipewrite src n' fuel => ignore (Process.pipewrite src n' fuel)
  | .piperead dst n' fuel => ignore (Process.piperead dst n' fuel)
  | .pipeclose writable => Process.pipeclose writable
  | .consoleread dst n' fuel => ignore (Process.consoleread dst n' fuel)
  | .consoleintr c => Process.consoleintr c
  | .sysPause n' fuel => ignore (Process.sysPause n' fuel)
  | .clockintr cpu => Process.clockintr cpu
  | .kfork f => ignore (Process.kfork f)
  | .kexit status => Process.kexit init status
  | .kwait dst fuel => ignore (Process.kwait dst fuel)
  | .kkill pid => ignore (Process.kkill pid)
  | .setkilled => Process.setkilled
  | .yield q => Process.yield q
  | .schedule q => Process.schedule q

/-- Everything that waits, everything that ends a wait, and kills, in any order. -/
def system (init : Fin n) : System (Tid n) Unit Halt (Kernel n) where
  Call := Call n
  code := Call.code init
  may _ _ _ := True
  resets := False
  reset s := s
  boot := pure ()

instance (init : Fin n) (t : Tid n) (x : (system init).Call) (s : Kernel n) :
    Decidable ((system init).may t x s) := .isTrue trivial

end Wait

end Process

end TrinityXv6
