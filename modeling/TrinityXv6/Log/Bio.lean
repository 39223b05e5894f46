import TrinityXv6.Log.State

/-!
# The buffer cache: `kernel/bio.c`

Each critical section on `bcache.lock` is one atomic action, as is each test of a sleep lock. A
thread can be preempted between any two of them: after `bget` took its reference and before it has
the buffer's lock, between the two halves of `brelse`, and so on.
-/

namespace TrinityXv6

namespace Log

open Threads

variable {τ : Type} [DecidableEq τ]

/-- The critical section of `bget`: look for a cached buffer from the front of the list, else
recycle an unreferenced one from its back. -/
def bgetLocked (dev blockno : ℕ) (t : τ) (s : State τ) : Out τ BufId :=
  match Ring.Links.scan s.bc.links.next
      (fun i => (s.bc.buf i).dev = dev && (s.bc.buf i).blockno = blockno) (nbuf + 1)
      (s.bc.links.next none) with
  | none => .halt .diverge
  | some (some i) =>
    .done i ({ s with refs := (t, i) :: s.refs }.setBuf i fun b =>
      { b with refcnt := b.refcnt + 1 }) []
  | some none =>
    match Ring.Links.scan s.bc.links.prev (fun i => (s.bc.buf i).refcnt = 0) (nbuf + 1)
        (s.bc.links.prev none) with
    | none => .halt .diverge
    | some (some i) =>
      .done i ({ s with refs := (t, i) :: s.refs }.setBuf i fun b =>
        { b with dev := dev, blockno := blockno, valid := false, refcnt := 1 }) []
    | some none => .halt .noBuffers

/-- `acquiresleep(&b->lock)` -/
def acquiresleep (i : BufId) (t : τ) (s : State τ) : Out τ Unit :=
  match (s.bc.buf i).lock with
  | none => .done () (s.setBuf i fun b => { b with lock := some t }) []
  | some _ => .sleep (.buf i)

/-- `bget` -/
def bget (dev blockno : ℕ) : M τ BufId := do
  let i ← .atomic (bgetLocked dev blockno)
  .atomic (acquiresleep i)
  pure i

/-- `if (!b->valid) { virtio_disk_rw(b, 0); b->valid = 1; }` -/
def fill (b : Buf τ) (disk : ℕ → Blk) : Buf τ :=
  if b.valid then b else { b with data := disk b.blockno, valid := true }

/-- The part of `bread` that follows `bget`. -/
def breadFill (i : BufId) (t : τ) (s : State τ) : Out τ Unit :=
  let b := fill (s.bc.buf i) s.disk
  .done () ((s.setBuf i fun _ => b).note [.read t b.blockno b.data]) []

/-- `bread` -/
def bread (dev blockno : ℕ) : M τ BufId := do
  let i ← bget dev blockno
  .atomic (breadFill i)
  pure i

/-- `bwrite`. The history notes what the write means to the caller. -/
def bwrite (i : BufId) (note : List (Event τ)) : M τ Unit := .atomic fun t s =>
  if (s.bc.buf i).lock = some t then
    .done () ({ s with disk := Function.update s.disk (s.bc.buf i).blockno (s.bc.buf i).data }.note
      note) []
  else .halt .bwrite

/-- The first half of `brelse`: `releasesleep`. -/
def releasesleep (i : BufId) (t : τ) (s : State τ) : Out τ Unit :=
  if (s.bc.buf i).lock = some t then
    .done () (s.setBuf i fun b => { b with lock := none }) [.buf i]
  else .halt .brelse

/-- The second half of `brelse`: drop the reference, and move the buffer to the front of the list
if it was the last one. -/
def dropRef (i : BufId) (t : τ) (s : State τ) : Out τ Unit :=
  let s' := { s with refs := s.refs.erase (t, i) }.setBuf i fun b =>
    { b with refcnt := b.refcnt - 1 }
  if (s.bc.buf i).refcnt - 1 = 0 then
    .done () { s' with bc := { s'.bc with links := (s'.bc.links.unlink i).pushFront i } } []
  else .done () s' []

/-- `brelse` -/
def brelse (i : BufId) : M τ Unit := do
  .atomic (releasesleep i)
  .atomic (dropRef i)

/-- `bpin` -/
def bpin (i : BufId) (s : State τ) : State τ :=
  s.setBuf i fun b => { b with refcnt := b.refcnt + 1 }

/-- `bunpin` -/
def bunpin (i : BufId) : M τ Unit := .atomic fun _ s =>
  .done () ((s.setBuf i fun b => { b with refcnt := b.refcnt - 1 }).note
    [.unpin (s.bc.buf i).blockno]) []

/-- A client's assignment to the data of a buffer it holds. -/
def modify (i : BufId) (d : Blk) : M τ Unit := .atomic fun t s =>
  .done () (({ s with dirty := i :: s.dirty }.setBuf i fun b => { b with data := d }).note
    [.modify t (s.bc.buf i).blockno d]) []

end Log

end TrinityXv6
