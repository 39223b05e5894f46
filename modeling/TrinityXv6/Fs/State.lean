import TrinityXv6.Lib.Command
import TrinityXv6.Log.Code
import TrinityXv6.Fs.Layout

/-!
# The state of the file system

The tables of `kernel/fs.c`, `kernel/file.c` and `kernel/proc.c` that the file system keeps in
memory, and the blocks below them.

The blocks are one array. That reading and writing them through the buffer cache and the log
amounts to this, as long as the machine does not restart, is what `TrinityXv6.Log` shows of that
layer. There is one device, so device numbers are left out, and so are pipes, which the file system
does not see.

A process is known by its name `τ`. It exists while it has a current directory.
-/

namespace TrinityXv6

namespace Fs

open Threads

/-- `NINODE`: inodes in memory. -/
abbrev nInode : ℕ := 50

/-- `NFILE`: open files. -/
abbrev nFile : ℕ := 100

/-- `NOFILE`: descriptors of a process. -/
abbrev nOfile : ℕ := 16

/-- `NDEV`: device drivers. -/
abbrev nDev : Int16 := 10

/-- A `struct inode *`: an entry of `itable`. -/
abbrev Slot := Fin nInode

/-- A `struct file *`: an entry of `ftable`. -/
abbrev FileId := Fin nFile

/-- A file descriptor. -/
abbrev Fd := Fin nOfile

/-- `struct inode`. The sleep lock is the process that holds it, if any. -/
structure Inode (τ : Type) where
  inum : ℕ
  ref : ℕ
  valid : Bool
  lock : Option τ
  din : Dinode

/-- The kinds of open files. -/
inductive FileType where
  | none
  | inode
  | device
  deriving DecidableEq, Repr

/-- `struct file` -/
structure File where
  type : FileType
  ref : ℕ
  readable : Bool
  writable : Bool
  ip : Slot
  off : UInt32
  major : Int16

/-- What a process keeps for the file system. -/
structure Proc where
  cwd : Option Slot
  ofile : Fd → Option FileId

/-- The state of the file system. `ops` holds the open operations and the blocks each of them
logged. -/
structure State (τ : Type) where
  blocks : ℕ → Blk
  itable : Slot → Inode τ
  ftable : FileId → File
  proc : τ → Proc
  ops : List (τ × List ℕ)

/-- What a process sleeps on: the lock of an inode. -/
inductive Chan where
  | inode (i : Slot)
  deriving DecidableEq

/-- The panics. `trap` is the use of a null pointer. -/
inductive Halt where
  | logWriteOutside
  | freeingFreeBlock
  | igetNoInodes
  | ilock
  | ilockNoType
  | iunlock
  | bmapOutOfRange
  | dirlookupNotDir
  | dirlookupRead
  | dirlinkRead
  | isdirempty
  | unlinkNlink
  | unlinkWritei
  | filedup
  | fileclose
  | fileread
  | filewrite
  | trap
  deriving DecidableEq, Repr

/-- Code that no other process interrupts, or that panics. -/
abbrev F (τ α : Type) := Command.Cmd (State τ) Halt α

/-- Programs of such code. -/
abbrev M (τ α : Type) := Prog τ Chan Halt (State τ) α

variable {τ : Type}

/-- The tables at boot, over a given disk. -/
def State.fresh (disk : ℕ → Blk) : State τ where
  blocks := disk
  itable _ := ⟨0, 0, false, none, .zero⟩
  ftable _ := ⟨.none, 0, false, false, 0, 0, 0⟩
  proc _ := ⟨none, fun _ => none⟩
  ops := []

namespace State

variable (s : State τ)

/-- Replace an inode in memory. -/
def setInode (i : Slot) (x : Inode τ) : State τ :=
  { s with itable := Function.update s.itable i x }

/-- Replace the fields of an inode in memory that are a copy of the disk's. -/
def setDin (i : Slot) (d : Dinode) : State τ := s.setInode i { s.itable i with din := d }

/-- Replace an open file. -/
def setFile (f : FileId) (x : File) : State τ :=
  { s with ftable := Function.update s.ftable f x }

variable [DecidableEq τ]

/-- Replace what a process keeps. -/
def setProc (t : τ) (x : Proc) : State τ := { s with proc := Function.update s.proc t x }

/-- The blocks the open operation of `t` logged. -/
def logged (t : τ) : List ℕ := (s.ops.lookup t).getD []

end State

end Fs

end TrinityXv6
