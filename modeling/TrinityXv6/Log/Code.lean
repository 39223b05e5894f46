import TrinityXv6.Log.Bio

/-!
# The log: `kernel/log.c`

Each critical section on `log.lock` is one atomic action. `commit` and `recover_from_log` run
without that lock and are preempted at every access to a buffer, to the disk or to `log.lh`.

`log.start` is the parameter `start`; `Home start b` says that block `b` is outside the log area,
which holds the header at `start` and the `LOGBLOCKS` log blocks after it.

## The clients

`system` is the machine in which any number of processes use this code: they read blocks, change
buffers they hold, log them, release them, and open and close `begin_op`/`end_op` brackets, in any
order the comment before `Call.allowed` admits. The machine may crash between any two actions; one
process then runs `recover_from_log` before any other runs at all.
-/

namespace TrinityXv6

namespace Log

open Threads

variable {τ : Type} [DecidableEq τ]

/-- Block `b` is not part of the log area. -/
def Home (start b : ℕ) : Prop := b < start ∨ start + logBlocks < b

instance (start b : ℕ) : Decidable (Home start b) := inferInstanceAs (Decidable (_ ∨ _))

/-! ## The header block -/

/-- `lh->n` in a header block. A negative `n` admits no iteration of any loop. -/
def headN (d : Blk) : ℕ := if Bytes.getLE d 0 4 < 2 ^ 31 then Bytes.getLE d 0 4 else 0

/-- `lh->block[i]` in a header block. -/
def headBlock (d : Blk) (i : ℕ) : ℕ := Bytes.getLE d (4 + 4 * i) 4

/-- The stores of `write_head`: `n`, then the first `k` block numbers. -/
def putHead (lh : LogHeader) (d : Blk) : ℕ → Blk
  | 0 => Bytes.putLE d 0 4 lh.n
  | k + 1 => Bytes.putLE (putHead lh d k) (4 + 4 * k) 4 (lh.block k)

/-! ## Reading and writing the shared log -/

/-- Read `log.lh.n`. -/
def getN : M τ ℕ := .atomic fun _ s => .done s.log.lh.n s []

/-- Read `log.lh.block[tail]`. -/
def getBlock (tail : ℕ) : M τ ℕ := .atomic fun _ s => .done (s.log.lh.block tail) s []

/-- `log.lh.n = 0` -/
def clearN : M τ Unit := .atomic fun _ s =>
  .done () { s with log := { s.log with lh := { s.log.lh with n := 0 } } } []

/-- `memmove(dst->data, src->data, BSIZE)` -/
def memmove (dst src : BufId) (k : CopyKind) : M τ Unit := .atomic fun _ s =>
  .done () ((s.setBuf dst fun b => { b with data := (s.bc.buf src).data }).note
    [.copy k (s.bc.buf dst).blockno (s.bc.buf src).data]) []

/-- Fill the header buffer from `log.lh`. -/
def fillHead (i : BufId) : M τ Unit := .atomic fun _ s =>
  let d := putHead s.log.lh (s.bc.buf i).data s.log.lh.n
  .done () ((s.setBuf i fun b => { b with data := d }).note [.head (s.bc.buf i).blockno d]) []

/-- `log.lh` as `read_head` fills it from header block `d`. -/
def LogHeader.load (lh : LogHeader) (d : Blk) : LogHeader where
  n := headN d
  block k := if k < headN d then headBlock d k else lh.block k

/-- Fill `log.lh` from the header buffer. More than `LOGBLOCKS` entries do not fit. -/
def loadHead (i : BufId) : M τ Unit := .atomic fun _ s =>
  if headN (s.bc.buf i).data ≤ logBlocks then
    .done () { s with log := { s.log with lh := s.log.lh.load (s.bc.buf i).data } } []
  else .halt .outOfBounds

/-! ## The functions of the source -/

section Start

variable (start : ℕ)

/-- The loop of `install_trans`, with `cnt` iterations to go. -/
def installFrom (recovering : Bool) : (tail cnt : ℕ) → M τ Unit
  | _, 0 => pure ()
  | tail, cnt + 1 => do
    let lbuf ← bread rootDev (start + tail + 1)
    let b ← getBlock tail
    let dbuf ← bread rootDev b
    memmove dbuf lbuf (if recovering then .replay else .install)
    bwrite dbuf []
    if recovering = false then bunpin dbuf
    brelse lbuf
    brelse dbuf
    installFrom recovering (tail + 1) cnt

/-- `install_trans` -/
def installTrans (recovering : Bool) : M τ Unit := do
  let n ← getN
  installFrom start recovering 0 n

/-- `read_head` -/
def readHead : M τ Unit := do
  let i ← bread rootDev start
  loadHead i
  brelse i

/-- `write_head` -/
def writeHead (note : List (Event τ)) : M τ Unit := do
  let i ← bread rootDev start
  fillHead i
  bwrite i note
  brelse i

/-- `recover_from_log` -/
def recoverFromLog : M τ Unit := do
  readHead start
  installTrans start true
  clearN
  writeHead start []

/-- The loop of `write_log`, with `cnt` iterations to go. -/
def writeLogFrom : (tail cnt : ℕ) → M τ Unit
  | _, 0 => pure ()
  | tail, cnt + 1 => do
    let dst ← bread rootDev (start + tail + 1)
    let b ← getBlock tail
    let src ← bread rootDev b
    memmove dst src .log
    bwrite dst []
    brelse src
    brelse dst
    writeLogFrom (tail + 1) cnt

/-- `write_log` -/
def writeLog : M τ Unit := do
  let n ← getN
  writeLogFrom start 0 n

/-- `commit` -/
def commit : M τ Unit := do
  let n ← getN
  if 0 < n then
    writeLog start
    writeHead start [.commitPoint]
    installTrans start false
    clearN
    writeHead start []

/-- `begin_op` -/
def beginOp : M τ Unit := .atomic fun t s =>
  if s.log.committing then .sleep .log
  else if (logBlocks : ℤ) < s.log.lh.n + (s.log.outstanding + 1) * maxOpBlocks then .sleep .log
  else .done () { s with
    log := { s.log with outstanding := s.log.outstanding + 1 }, ops := (t, []) :: s.ops } []

/-- The first critical section of `end_op`. The result is `do_commit`. -/
def endOpLocked (t : τ) (s : State τ) : Out τ Bool :=
  if s.log.committing then .halt .logCommitting
  else
    let ops := s.ops.filter fun o => o.1 ≠ t
    if s.log.outstanding - 1 = 0 then
      .done true { s with
        log := { s.log with outstanding := s.log.outstanding - 1, committing := true }, ops := ops,
        committer := some t } []
    else
      .done false ({ s with
        log := { s.log with outstanding := s.log.outstanding - 1 }, ops := ops }.note [.endRet t])
        [.log]

/-- The last critical section of an `end_op` that committed. -/
def endCommit : M τ Unit := .atomic fun t s =>
  if s.log.ncommit + 1 < 2 ^ 31 then
    .done () ({ s with
      log := { s.log with committing := false, ncommit := s.log.ncommit + 1 },
      committer := none }.note [.installed s.disk, .endRet t]) [.log]
  else .halt .overflow

/-- `end_op` -/
def endOp : M τ Unit := do
  let doCommit ← .atomic endOpLocked
  if doCommit then
    commit start
    endCommit

end Start

/-- The slot `log_write` stores to: the first one that holds the block, else the next free one. -/
def LogHeader.slot (lh : LogHeader) (b : ℕ) : ℕ :=
  ((List.range lh.n).find? fun i => lh.block i = b).getD lh.n

/-- Note that the open operation of `t` logged block `b`. -/
def logOp (t : τ) (b : ℕ) (ops : List (τ × List ℕ)) : List (τ × List ℕ) :=
  ops.map fun o => if o.1 = t ∧ b ∉ o.2 then (o.1, b :: o.2) else o

/-- The critical section of `log_write`. -/
def logWriteLocked (i : BufId) (t : τ) (s : State τ) : Out τ Unit :=
  let b := (s.bc.buf i).blockno
  let lh := s.log.lh
  if logBlocks ≤ lh.n then .halt (.tooBig b)
  else if s.log.outstanding < 1 then .halt .outsideTrans
  else if logBlocks ≤ lh.slot b then .halt .outOfBounds
  else
    let block := Function.update lh.block (lh.slot b) b
    let s := { s with ops := logOp t b s.ops, dirty := s.dirty.filter (· ≠ i) }
    if lh.slot b = lh.n then
      .done () (bpin i { s with log := { s.log with lh := ⟨lh.n + 1, block⟩ } }) []
    else .done () { s with log := { s.log with lh := ⟨lh.n, block⟩ } } []

/-- `log_write` -/
def logWrite (i : BufId) : M τ Unit := .atomic (logWriteLocked i)

/-- The first critical section of `sys_sync`: the number of commits to wait for, if any. -/
def syncEnter (t : τ) (s : State τ) : Out τ (Option ℤ) :=
  if s.log.committing ∨ 0 < s.log.outstanding then
    if s.log.ncommit + 1 < 2 ^ 31 then
      .done (some (s.log.ncommit + 1)) (s.note [.syncAcq t]) []
    else .halt .overflow
  else .done none (s.note [.syncRet t, .syncAcq t]) []

/-- `while (log.ncommit < n) ...` -/
def syncWait (n : ℤ) (t : τ) (s : State τ) : Out τ Unit :=
  if s.log.ncommit < n then .sleep .log else .done () (s.note [.syncRet t]) []

/-- `sys_sync` -/
def sysSync : M τ Unit := do
  match ← .atomic syncEnter with
  | none => pure ()
  | some n => .atomic (syncWait n)

/-! ## The machine -/

/-- The end of `initlog`: processes may run. -/
def startUp : M τ Unit := .atomic fun _ s =>
  .done () ({ s with up := true }.note [.recovered s.disk]) []

/-- What a process may ask of the block layer. -/
inductive Call where
  | bread (b : ℕ)
  | modify (i : BufId) (d : Blk)
  | logWrite (i : BufId)
  | brelse (i : BufId)
  | beginOp
  | endOp
  | sysSync

/-- The code of a call. -/
def Call.code (start : ℕ) : Call → M τ Unit
  | .bread b => do
    let _ ← Log.bread rootDev b
    pure ()
  | .modify i d => Log.modify i d
  | .logWrite i => Log.logWrite i
  | .brelse i => Log.brelse i
  | .beginOp => Log.beginOp
  | .endOp => Log.endOp start
  | .sysSync => Log.sysSync

/-- Process `t` is inside a `begin_op`/`end_op` bracket. -/
def State.InOp (s : State τ) (t : τ) : Prop := t ∈ s.ops.map Prod.fst

/-- Process `t` holds the sleep lock of buffer `i`. -/
def State.Holds (s : State τ) (t : τ) (i : BufId) : Prop := (s.bc.buf i).lock = some t

/-- The operation of `t` has logged block `b`, or fewer than `MAXOPBLOCKS` distinct blocks. -/
def State.Entitled (s : State τ) (t : τ) (b : ℕ) : Prop :=
  ∀ l, (t, l) ∈ s.ops → b ∈ l ∨ l.length < maxOpBlocks

/-- Two further promises the clients may make. -/
structure Rules where
  /-- A bracket logs at most `MAXOPBLOCKS` distinct blocks. -/
  limit : Prop
  /-- A process has released all its buffers when it calls `end_op`. -/
  release : Prop

/-- The discipline of the callers. A process changes and logs only buffers it holds, of blocks
outside the log area, and inside a bracket; it logs what it changed before it releases the buffer
or ends the bracket; and brackets do not nest. A block number that is logged fits the `uint` it is
kept in. -/
def Call.allowed (start : ℕ) (R : Rules) (t : τ) (c : Call) (s : State τ) : Prop :=
  s.up = true ∧ match c with
    | .bread _ => True
    | .modify i _ => s.Holds t i ∧ s.InOp t ∧ Home start (s.bc.buf i).blockno
    | .logWrite i => s.Holds t i ∧ s.InOp t ∧ Home start (s.bc.buf i).blockno ∧
        (s.bc.buf i).blockno < 2 ^ 32 ∧ (R.limit → s.Entitled t (s.bc.buf i).blockno)
    | .brelse i => s.Holds t i ∧ i ∉ s.dirty
    | .beginOp => ¬ s.InOp t
    | .endOp => s.InOp t ∧ (∀ i ∈ s.dirty, ¬ s.Holds t i) ∧ (R.release → ∀ i, (t, i) ∉ s.refs)
    | .sysSync => True

instance (s : State τ) (t : τ) : Decidable (s.InOp t) :=
  inferInstanceAs (Decidable (_ ∈ _))

instance (s : State τ) (t : τ) (i : BufId) : Decidable (s.Holds t i) :=
  inferInstanceAs (Decidable (_ = _))

instance (s : State τ) (t : τ) (b : ℕ) : Decidable (s.Entitled t b) :=
  decidable_of_iff (∀ o ∈ s.ops, o.1 = t → b ∈ o.2 ∨ o.2.length < maxOpBlocks)
    ⟨fun h l hl => h (t, l) hl rfl, fun h ⟨_, l⟩ ho hu => h l (hu ▸ ho)⟩

instance Call.decidableAllowed (start : ℕ) (R : Rules) [Decidable R.limit] [Decidable R.release]
    (t : τ) (c : Call) (s : State τ) : Decidable (c.allowed start R t s) :=
  match c with
  | .bread _ => inferInstanceAs (Decidable (_ ∧ True))
  | .modify _ _ => inferInstanceAs (Decidable (_ ∧ _ ∧ _ ∧ _))
  | .logWrite _ => inferInstanceAs (Decidable (_ ∧ _ ∧ _ ∧ _ ∧ _ ∧ (R.limit → _)))
  | .brelse _ => inferInstanceAs (Decidable (_ ∧ _ ∧ _))
  | .beginOp => inferInstanceAs (Decidable (_ ∧ ¬ _))
  | .endOp => inferInstanceAs (Decidable (_ ∧ _ ∧ (∀ i ∈ s.dirty, ¬ s.Holds t i) ∧
      (R.release → ∀ i, (t, i) ∉ s.refs)))
  | .sysSync => inferInstanceAs (Decidable (_ ∧ True))

/-- The block layer with its clients. -/
def system (start : ℕ) (R : Rules) : System τ Chan Halt (State τ) where
  Call := Call
  code := Call.code start
  may := Call.allowed start R
  resets := True
  reset := State.crash
  boot := do
    recoverFromLog start
    startUp

instance (start : ℕ) (R : Rules) [Decidable R.limit] [Decidable R.release] (t : τ)
    (c : (system (τ := τ) start R).Call) (s : State τ) : Decidable ((system start R).may t c s) :=
  Call.decidableAllowed start R t c s

/-- The machine switched on with a given disk; process `t₀` is the first. -/
def boot (start : ℕ) (R : Rules) (disk : ℕ → Blk) (t₀ : τ) : Config τ Chan Halt (State τ) :=
  (system start R).powerOn (.fresh disk []) t₀

end Log

end TrinityXv6
