import TrinityXv6.Lib.Ring
import TrinityXv6.Lib.Threads
import TrinityXv6.Param

/-!
# The block layer: state

The state shared by `kernel/bio.c` and `kernel/log.c`: the buffer cache with its list, the disk,
and the log. Processes are named by an arbitrary type `τ`; a buffer's sleep lock records which
process holds it, as `struct sleeplock` does by pid.

## Histories

Besides the kernel's own data a state carries a few history variables, which no branch of the code
reads. `refs` lists the references taken by `bget` and not yet dropped by `brelse`, `ops` the open
`begin_op`/`end_op` brackets with the blocks each has logged, `dirty` the buffers modified in place
and not yet passed to `log_write`, and `hist` the events so far, newest first. What a block *should*
contain is a function of `hist` alone, defined in `TrinityXv6.Log.History`.
-/

namespace TrinityXv6

namespace Log

/-- A buffer of `bcache.buf`, by index. -/
abbrev BufId := Fin nbuf

/-- `struct buf`, with its list pointers kept in `BCache.links`. -/
structure Buf (τ : Type) where
  valid : Bool
  dev : ℕ
  blockno : ℕ
  lock : Option τ
  refcnt : ℕ
  data : Blk

/-- `bcache`: the buffers, and the list through `bcache.head`. -/
structure BCache (τ : Type) where
  buf : BufId → Buf τ
  links : Ring.Links BufId

/-- `struct logheader`: `n` block numbers, of which there is room for `LOGBLOCKS`. -/
structure LogHeader where
  n : ℕ
  block : ℕ → ℕ

/-- `struct log`, without its lock: a critical section on `log.lock` is one atomic action. The
device is always `ROOTDEV`, and `log.start` is a parameter of the code. -/
structure LogState where
  outstanding : ℤ
  committing : Bool
  ncommit : ℤ
  lh : LogHeader

/-- What a `memmove` between two buffers is for: filling a log block, replaying a log block at
boot, or installing a block at the end of a commit. -/
inductive CopyKind where
  | log
  | replay
  | install

/-- What happened, as far as the contents of the disk and the calls of the log are concerned. -/
inductive Event (τ : Type) where
  /-- `bread` returned these contents of a block. -/
  | read (t : τ) (b : ℕ) (d : Blk)
  /-- A client changed a buffer in place. -/
  | modify (t : τ) (b : ℕ) (d : Blk)
  /-- The log code copied these contents into the buffer of a block. -/
  | copy (k : CopyKind) (b : ℕ) (d : Blk)
  /-- `write_head` filled the buffer of the header block. -/
  | head (b : ℕ) (d : Blk)
  /-- The first `write_head` of a commit reached the disk. -/
  | commitPoint
  /-- `install_trans` unpinned the buffer of a block. -/
  | unpin (b : ℕ)
  /-- A commit is complete; the disk as it then was. -/
  | installed (disk : ℕ → Blk)
  /-- The last critical section of an `end_op`. -/
  | endRet (t : τ)
  /-- `sys_sync` acquired `log.lock`. -/
  | syncAcq (t : τ)
  /-- `sys_sync` returned. -/
  | syncRet (t : τ)
  /-- The machine stopped, with this disk. -/
  | crash (disk : ℕ → Blk)
  /-- `recover_from_log` is complete; the disk as it then was. -/
  | recovered (disk : ℕ → Blk)

/-- The state of the block layer. -/
structure State (τ : Type) where
  bc : BCache τ
  disk : ℕ → Blk
  log : LogState
  /-- Recovery is over and processes may run. -/
  up : Bool
  refs : List (τ × BufId)
  ops : List (τ × List ℕ)
  dirty : List BufId
  /-- The process inside `commit`. -/
  committer : Option τ
  hist : List (Event τ)

/-- Wait channels: `&log` and the sleep lock of a buffer. -/
inductive Chan where
  | log
  | buf (i : BufId)
  deriving DecidableEq

/-- Why a thread stops for good. All but the last three are panics of the source. -/
inductive Halt where
  /-- `bget: no buffers` -/
  | noBuffers
  /-- `bwrite` -/
  | bwrite
  /-- `brelse` -/
  | brelse
  /-- `log.committing` -/
  | logCommitting
  /-- `too big a transaction`, logging this block -/
  | tooBig (b : ℕ)
  /-- `log_write outside of trans` -/
  | outsideTrans
  /-- A write past the end of `log.lh.block`. -/
  | outOfBounds
  /-- A loop over the buffer list that never meets the list head. -/
  | diverge
  /-- `log.ncommit + 1` overflows an `int`, which C leaves undefined. -/
  | overflow
  deriving DecidableEq

/-- Programs of the block layer. -/
abbrev M (τ : Type) := Threads.Prog τ Chan Halt (State τ)

/-- The outcome of an action of the block layer. -/
abbrev Out (τ β : Type) := Threads.Outcome Chan Halt (State τ) β

variable {τ : Type}

/-- `binit`: every buffer is pushed to the front of the list, in the order of the array. -/
def binit : BCache τ where
  buf _ := ⟨false, 0, 0, none, 0, fun _ => 0⟩
  links := (List.finRange nbuf).foldl (fun R i => R.pushFront i) .empty

/-- The zeroed `log`. -/
def LogState.zero : LogState := ⟨0, false, 0, ⟨0, fun _ => 0⟩⟩

/-- Memory as it is when the machine starts, with the disk it starts from. -/
def State.fresh (disk : ℕ → Blk) (hist : List (Event τ)) : State τ where
  bc := binit
  disk := disk
  log := .zero
  up := false
  refs := []
  ops := []
  dirty := []
  committer := none
  hist := hist

/-- A crash loses everything but the disk. -/
def State.crash (s : State τ) : State τ := .fresh s.disk (.crash s.disk :: s.hist)

/-- Change one buffer. -/
def State.setBuf (s : State τ) (i : BufId) (f : Buf τ → Buf τ) : State τ :=
  { s with bc := { s.bc with buf := Function.update s.bc.buf i (f (s.bc.buf i)) } }

/-- Note events in the history. -/
def State.note (s : State τ) (es : List (Event τ)) : State τ := { s with hist := es ++ s.hist }

/-! ## Small lemmas about the two updates -/

section

variable (s : State τ) (i : BufId) (f : Buf τ → Buf τ) (es : List (Event τ))

@[simp] theorem setBuf_self : (s.setBuf i f).bc.buf i = f (s.bc.buf i) := by
  simp [State.setBuf]

theorem setBuf_of_ne {j : BufId} (h : j ≠ i) : (s.setBuf i f).bc.buf j = s.bc.buf j := by
  simp [State.setBuf, h]

theorem setBuf_apply (j : BufId) :
    (s.setBuf i f).bc.buf j = if j = i then f (s.bc.buf i) else s.bc.buf j := by
  by_cases h : j = i
  · subst h; simp
  · simp [setBuf_of_ne, h]

@[simp] theorem setBuf_refs : (s.setBuf i f).refs = s.refs := rfl

@[simp] theorem note_bc : (s.note es).bc = s.bc := rfl
@[simp] theorem note_log : (s.note es).log = s.log := rfl
@[simp] theorem note_up : (s.note es).up = s.up := rfl
@[simp] theorem note_ops : (s.note es).ops = s.ops := rfl
@[simp] theorem note_committer : (s.note es).committer = s.committer := rfl
@[simp] theorem note_hist : (s.note es).hist = es ++ s.hist := rfl

end

end Log

end TrinityXv6
