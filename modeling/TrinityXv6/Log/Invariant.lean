import TrinityXv6.Log.History

/-!
# The invariant of the block layer

The invariant has six parts, each a structure of its own.

* `CacheOk`: the list visits every buffer once, no two buffers cache the same block, a reference
  count is the number of references taken plus one for a pinned block, and every thread knows the
  buffers it has references to and locks of.
* `DataOk`: a valid buffer holds the current contents of its block; and a block whose current
  contents are not on the disk is in a valid buffer that is pinned, or modified and about to be
  logged, or being written by the thread inside `commit` or recovery.
* `LogOk`: the bookkeeping of the log.
* `LiveOk`: until recovery is over, no thread but the one that runs it uses the cache.
* `DiskOk`: a crash now would be recovered from, and how far the commit or the recovery has got.
* `HistInv`: what the history promises.

## Ghost state

What a thread knows between two of its actions is its `Mine` record, and, for the one thread
inside `commit` or `recover_from_log`, how far it is: its `Stage`, the buffer it has changed and
not yet written, and the contents of `log.lh`.
-/

namespace TrinityXv6

namespace Log

variable {τ : Type} [DecidableEq τ]

/-- How far the commit or the recovery in progress is. -/
inductive Stage where
  /-- The first `k` log blocks are written. -/
  | wlog (k : ℕ)
  /-- The header is written, the first `k` blocks are installed and unpinned. -/
  | inst (k : ℕ)
  /-- As `inst k`, with block `k` installed but still pinned. -/
  | instW (k : ℕ)
  /-- Recovery has not read the header. -/
  | rhead
  /-- Recovery has replayed the first `k` blocks. -/
  | rinst (k : ℕ)
  /-- Everything is installed or replayed, and `log.lh.n` is zero. -/
  | clear (recovering : Bool)
  /-- The header is cleared on the disk. -/
  | fin (recovering : Bool)

/-- The stage is one of recovery. -/
def Stage.recovering : Stage → Bool
  | .rhead | .rinst _ => true
  | .clear r | .fin r => r
  | _ => false

/-- The thread inside `commit` or recovery. -/
structure Active (τ : Type) where
  thread : τ
  stage : Stage
  /-- The buffer it has changed and not yet written. -/
  mod : Option BufId
  /-- `log.lh`, while it matters. -/
  lh : LogHeader

/-- The number of listed blocks that are not pinned: those already installed by a commit, and all
of them during recovery. -/
def Active.skip (a : Active τ) : ℕ := match a.stage with
  | .inst k | .instW k => k
  | .rinst _ => a.lh.n
  | _ => 0

/-- The number of blocks the commit in progress has unpinned. -/
def Active.unpins (a : Active τ) : ℕ := match a.stage with
  | .inst k | .instW k => k
  | .clear false | .fin false => a.lh.n
  | _ => 0

/-- What the bookkeeping of the log depends on. -/
def Active.key (a : Active τ) : τ × Bool := (a.thread, a.stage.recovering)

/-- What a thread knows about its own references, locks and calls. -/
structure Mine (τ : Type) where
  refs : List BufId
  blk : BufId → ℕ
  locks : List BufId
  /-- Buffers it holds whose contents have been read. -/
  full : List BufId
  /-- Buffers it has modified and not yet logged. -/
  dirt : List BufId
  /-- Inside a bracket: the blocks logged so far. -/
  op : Option (List ℕ)
  /-- It has made a call since the machine was started. -/
  live : Bool
  /-- Inside `sys_sync`: the number it waits for, and the history when it acquired the lock. -/
  sync : Option (ℤ × List (Event τ))

/-- The ghost state. -/
structure Ghost (τ : Type) where
  th : τ → Mine τ
  active : Option (Active τ)

namespace Ghost

/-- What thread `t` sees of the ghost state. -/
def view (G : Ghost τ) (t : τ) : Mine τ × Option (Stage × Option BufId × LogHeader) :=
  (G.th t, match G.active with
    | none => none
    | some a => if a.thread = t then some (a.stage, a.mod, a.lh) else none)

/-- The buffer changed and not yet written, if any. -/
def mod (G : Ghost τ) : Option BufId := G.active.bind Active.mod

/-- The number of listed blocks that are not pinned. -/
def skip (G : Ghost τ) : ℕ := match G.active with
  | none => 0
  | some a => a.skip

/-- The number of blocks the commit in progress has unpinned. -/
def unpins (G : Ghost τ) : ℕ := match G.active with
  | none => 0
  | some a => a.unpins

/-- Change what one thread knows. -/
def set (G : Ghost τ) (t : τ) (m : Mine τ) : Ghost τ := { G with th := Function.update G.th t m }

@[simp] theorem set_self (G : Ghost τ) (t : τ) (m : Mine τ) : (G.set t m).th t = m := by
  simp [set]

theorem set_of_ne (G : Ghost τ) {t u : τ} (m : Mine τ) (h : u ≠ t) : (G.set t m).th u = G.th u := by
  simp [set, h]

theorem set_proj {α : Type} (p : Mine τ → α) (G : Ghost τ) {t : τ} {m : Mine τ}
    (hp : p m = p (G.th t)) (u : τ) : p ((G.set t m).th u) = p (G.th u) :=
  Threads.view_update p hp u

@[simp] theorem set_active (G : Ghost τ) (t : τ) (m : Mine τ) : (G.set t m).active = G.active := rfl

@[simp] theorem set_skip (G : Ghost τ) (t : τ) (m : Mine τ) : (G.set t m).skip = G.skip := rfl

theorem view_set_of_ne (G : Ghost τ) {t u : τ} (m : Mine τ) (h : u ≠ t) :
    (G.set t m).view u = G.view u := by
  simp [view, set_of_ne G m h]

theorem view_set_self (G : Ghost τ) (t : τ) (m : Mine τ) :
    (G.set t m).view t = (m, (G.view t).2) := by
  simp [view]

end Ghost

/-! ## Notions the parts share -/

/-- The blocks in the in-memory log header. -/
def listed (lh : LogHeader) : List ℕ := (List.range lh.n).map lh.block

/-- Buffer `i` caches block `b` of the root device. -/
def Cached (s : State τ) (b : ℕ) (i : BufId) : Prop :=
  (s.bc.buf i).dev = rootDev ∧ (s.bc.buf i).blockno = b

instance (s : State τ) (b : ℕ) (i : BufId) : Decidable (Cached s b i) :=
  inferInstanceAs (Decidable (_ ∧ _))

/-- The number of references taken to a buffer and not yet dropped. -/
def holders (s : State τ) (i : BufId) : ℕ := (s.refs.map Prod.snd).count i

/-- The listed blocks whose buffers are pinned. -/
def pinned (s : State τ) (G : Ghost τ) : List ℕ := (listed s.log.lh).drop G.skip

/-- The pins on a buffer. -/
def pins (s : State τ) (G : Ghost τ) (i : BufId) : ℕ :=
  if (s.bc.buf i).dev = rootDev ∧ (s.bc.buf i).blockno ∈ pinned s G then 1 else 0

/-- What the open brackets may still log. -/
def allowance (ops : List (τ × List ℕ)) : ℕ := (ops.map fun o => maxOpBlocks - o.2.length).sum

/-! ## The parts -/

/-- The buffer cache as a data structure. -/
structure CacheOk (s : State τ) (G : Ghost τ) : Prop where
  ring : ∃ l, s.bc.links.Through l ∧ l.Nodup ∧ ∀ i, i ∈ l
  uniq : ∀ b i j, Cached s b i → Cached s b j → i = j
  refcnt : ∀ i, (s.bc.buf i).refcnt = holders s i + pins s G i
  count : ∀ t i, s.refs.count (t, i) = (G.th t).refs.count i
  blk : ∀ t, ∀ i ∈ (G.th t).refs, Cached s ((G.th t).blk i) i
  lock : ∀ t i, (s.bc.buf i).lock = some t ↔ i ∈ (G.th t).locks
  lock_ref : ∀ t, ∀ i ∈ (G.th t).locks, i ∈ (G.th t).refs
  full : ∀ t, ∀ i ∈ (G.th t).full, i ∈ (G.th t).locks ∧ (s.bc.buf i).valid = true

/-- The contents of the buffers and of the disk. -/
structure DataOk (start : ℕ) (d₀ : ℕ → Blk) (s : State τ) (G : Ghost τ) : Prop where
  coherent : ∀ b i, Cached s b i → (s.bc.buf i).valid = true →
    (s.bc.buf i).data = current d₀ s.hist b
  flushed : ∀ b, s.disk b ≠ current d₀ s.hist b → ∃ i, Cached s b i ∧
    (s.bc.buf i).valid = true ∧ (b ∈ pinned s G ∨ i ∈ s.dirty ∨ G.mod = some i)
  pinnedBuf : ∀ b ∈ pinned s G, ∃ i, Cached s b i ∧ (s.bc.buf i).valid = true
  dirty : ∀ i ∈ s.dirty, ∃ t, i ∈ (G.th t).dirt
  dirt : ∀ t, ∀ i ∈ (G.th t).dirt, i ∈ s.dirty ∧ i ∈ (G.th t).full ∧ (G.th t).op ≠ none ∧
    Home start ((G.th t).blk i)
  mod : ∀ a i, G.active = some a → a.mod = some i → i ∈ (G.th a.thread).full

/-- The bookkeeping of the log. -/
structure LogOk (start : ℕ) (R : Rules) (s : State τ) (G : Ghost τ) : Prop where
  n_le : s.log.lh.n ≤ logBlocks
  nodup : (listed s.log.lh).Nodup
  home : ∀ b ∈ listed s.log.lh, Home start b ∧ b < 2 ^ 32
  outstanding : s.log.outstanding = s.ops.length
  keys : (s.ops.map Prod.fst).Nodup
  op : ∀ t l, (G.th t).op = some l ↔ (t, l) ∈ s.ops
  logged : ∀ o ∈ s.ops, o.2 ⊆ listed s.log.lh
  committing : s.log.committing = true ↔ s.up = true ∧ G.active ≠ none
  committer : ∀ t, s.committer = some t ↔ s.up = true ∧ ∃ a, G.active = some a ∧ a.thread = t
  quiet : G.active ≠ none → s.ops = []
  up : ∀ a, G.active = some a → s.up = !a.stage.recovering
  down : s.up = false → G.active ≠ none
  idle : G.active = none → s.ops = [] → s.log.lh.n = 0
  ncommit : s.log.ncommit = commits s.hist
  room : R.limit → (∀ o ∈ s.ops, o.2.length ≤ maxOpBlocks) ∧
    s.log.lh.n + allowance s.ops ≤ logBlocks

/-- Until recovery is over, one thread uses the cache. -/
structure LiveOk (s : State τ) (G : Ghost τ) : Prop where
  live : ∀ t, (G.th t).live = true → s.up = true
  dead : s.up = false → ∀ a, G.active = some a → ∀ u, u ≠ a.thread → (G.th u).refs = []

/-- What is on the disk at each stage of a commit or of recovery. -/
def StageOk (start : ℕ) (d₀ : ℕ → Blk) (s : State τ) (a : Active τ) : Prop :=
  match a.stage with
  | .wlog k => s.log.lh = a.lh ∧ headN (s.disk start) = 0 ∧ k ≤ a.lh.n ∧
      (∀ j < k, s.disk (start + j + 1) = current d₀ s.hist (a.lh.block j)) ∧
      ∀ i, a.mod = some i →
        (k < a.lh.n ∧ Cached s (start + k + 1) i ∧
          current d₀ s.hist (start + k + 1) = current d₀ s.hist (a.lh.block k)) ∨
        (k = a.lh.n ∧ Cached s start i ∧ Matches (current d₀ s.hist start) a.lh)
  | .inst k => s.log.lh = a.lh ∧ a.mod = none ∧ k ≤ a.lh.n ∧
      (∀ j < a.lh.n, s.disk (start + j + 1) = current d₀ s.hist (a.lh.block j)) ∧
      ∀ b, Home start b → durable d₀ s.hist b = current d₀ s.hist b
  | .instW k => s.log.lh = a.lh ∧ a.mod = none ∧ k < a.lh.n ∧
      (∀ j < a.lh.n, s.disk (start + j + 1) = current d₀ s.hist (a.lh.block j)) ∧
      (∀ b, Home start b → durable d₀ s.hist b = current d₀ s.hist b) ∧
      s.disk (a.lh.block k) = current d₀ s.hist (a.lh.block k)
  | .rhead => s.log.lh.n = 0 ∧ a.mod = none
  | .rinst k => s.log.lh = a.lh ∧ Matches (s.disk start) a.lh ∧ k ≤ a.lh.n ∧
      (∀ j < k, s.disk (a.lh.block j) = s.disk (start + j + 1)) ∧
      ∀ i, a.mod = some i → k < a.lh.n ∧ Cached s (a.lh.block k) i ∧
        current d₀ s.hist (a.lh.block k) = s.disk (start + k + 1)
  | .clear _ => s.log.lh.n = 0 ∧ (∀ b, Home start b → s.disk b = durable d₀ s.hist b) ∧
      ∀ i, a.mod = some i → Cached s start i ∧ headN (current d₀ s.hist start) = 0
  | .fin _ => s.log.lh.n = 0 ∧ a.mod = none ∧ headN (s.disk start) = 0

/-- What is on the disk. -/
structure DiskOk (start : ℕ) (d₀ : ℕ → Blk) (s : State τ) (G : Ghost τ) : Prop where
  recoverable : Recoverable start s.disk (durable d₀ s.hist)
  empty : G.active = none → headN (s.disk start) = 0
  stage : ∀ a, G.active = some a → StageOk start d₀ s a
  unpinned : unpinned s.hist = G.unpins

/-- What the history promises, and what a thread inside `sys_sync` is waiting for. -/
structure HistInv (start : ℕ) (d₀ : ℕ → Blk) (s : State τ) (G : Ghost τ) : Prop where
  ok : HistOk start d₀ s.hist
  volatile : ∀ b, Home start b → (spec d₀ s.hist).volatile b =
    if s.up then current d₀ s.hist b else durable d₀ s.hist b
  settled : s.up = false ∨ (G.active = none ∧ s.ops = []) → Settled s.hist
  sync : ∀ t n C, (G.th t).sync = some (n, C) → n = commits C + 1 ∧
    ∃ B, s.hist = B ++ .syncAcq t :: C ∧ NoSync t B

/-- The invariant of the block layer. -/
structure Inv (start : ℕ) (d₀ : ℕ → Blk) (R : Rules) (s : State τ) (G : Ghost τ) : Prop where
  cache : CacheOk s G
  data : DataOk start d₀ s G
  log : LogOk start R s G
  live : LiveOk s G
  disk : DiskOk start d₀ s G
  hist : HistInv start d₀ s G

end Log

end TrinityXv6
