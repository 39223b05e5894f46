import TrinityXv6.Lib.Command
import TrinityXv6.Param

/-!
# The disk driver

`kernel/virtio_disk.c`: `virtio_disk_rw`, which puts a request in front of the device and waits for
it, and `virtio_disk_intr`, which takes the device's answers. Any number of processes and of CPUs
run them, and the device runs beside them.

`vdisk_lock` serialises the driver but not the device, so the places where the two meet are actions
of their own: the avail index, the used index, and each turn of the interrupt handler's loop. What
the driver does between two of them is not seen by anyone. A failed `alloc3_desc` gives back what
it took, so that its process waits in the state it found (`alloc3Desc_fail`).

## The device

The device follows the protocol of split rings. It takes heads from the avail ring in the order in
which they were put there, and completes what it has taken in any order: it reads the chain, writes
the status 0 and puts the head into the used ring.
-/

namespace TrinityXv6

namespace Virtio

open Threads Command
open Function (update)

/-- `NUM` -/
abbrev num : ℕ := 8

instance neZero_num : NeZero num := ⟨by decide⟩

/-- Indices into the tables of `NUM` entries. -/
abbrev DescId := Fin num

/-- `VRING_DESC_F_NEXT` -/
abbrev descNext : UInt16 := 1

/-- `VRING_DESC_F_WRITE` -/
abbrev descWrite : UInt16 := 2

/-- `VIRTIO_BLK_T_IN` -/
abbrev blkIn : UInt32 := 0

/-- `VIRTIO_BLK_T_OUT` -/
abbrev blkOut : UInt32 := 1

/-- `sizeof(struct virtio_blk_req)` -/
abbrev reqSize : UInt32 := 16

/-- Who runs the driver, and the device. -/
inductive Agent (ι κ : Type) where
  | proc (p : ι)
  | cpu (c : κ)
  | device
  deriving DecidableEq, Repr

/-- The addresses a descriptor can hold. -/
inductive Addr (β : Type) where
  | null
  /-- `&disk.ops[i]` -/
  | ops (i : DescId)
  /-- `b->data` -/
  | data (b : β)
  /-- `&disk.info[i].status` -/
  | status (i : DescId)
  deriving DecidableEq, Repr

/-- `struct virtq_desc` -/
structure Desc (β : Type) where
  addr : Addr β
  len : UInt32
  flags : UInt16
  next : UInt16
  deriving DecidableEq, Repr

/-- A descriptor as `free_desc` leaves it. -/
def Desc.zero {β : Type} : Desc β := ⟨.null, 0, 0, 0⟩

/-- `struct virtio_blk_req` -/
structure BlkReq where
  type : UInt32
  reserved : UInt32
  sector : UInt64
  deriving DecidableEq, Repr

/-- An entry of `disk.info`. -/
structure Info (β : Type) where
  b : Option β
  status : UInt8

/-- `struct virtq_avail`, whose flags nobody reads. -/
structure Avail where
  idx : UInt16
  ring : DescId → UInt16

/-- `struct virtq_used`, whose flags and lengths nobody reads. -/
structure Used where
  idx : UInt16
  ring : DescId → UInt32

/-- The part of `struct buf` that the driver uses, with its sleeplock. -/
structure Buf (τ : Type) where
  blockno : UInt32
  disk : Bool
  lock : Option τ

/-- The variables of one run of `virtio_disk_rw`: `idx`, `b`, `write` and `sector`. -/
structure Request (β : Type) where
  head : DescId
  data : DescId
  status : DescId
  b : β
  write : Bool
  sector : UInt64
  deriving DecidableEq, Repr

/-- What happens to requests. -/
inductive Event (τ β : Type) where
  /-- `virtio_disk_rw` has filled in its descriptors. -/
  | submitted (t : τ) (r : Request β)
  /-- The device has completed what the chain at `head` asks for. -/
  | completed (head : DescId) (op : BlkReq) (b : β)
  /-- `virtio_disk_intr` has found `b` to be the buffer of `head`. -/
  | served (head : DescId) (b : β)
  /-- `virtio_disk_rw` returns. -/
  | returned (t : τ) (r : Request β)
  deriving DecidableEq, Repr

/-- States of the driver, the device and the buffers, with what has happened, latest first. -/
structure State (ι κ β : Type) where
  desc : DescId → Desc β
  avail : Avail
  used : Used
  free : DescId → Bool
  usedIdx : UInt16
  info : DescId → Info β
  ops : DescId → BlkReq
  vdiskLock : Option (Agent ι κ)
  buf : β → Buf (Agent ι κ)
  /-- How far the device has read the avail ring. -/
  seen : UInt16
  /-- The heads the device has read and not completed. -/
  pending : List DescId
  hist : List (Event (Agent ι κ) β)

/-- Reasons to halt: the panics of the driver, and accesses that have no meaning. -/
inductive Halt where
  /-- `panic("free_desc 1")` -/
  | freeDesc1
  /-- `panic("free_desc 2")` -/
  | freeDesc2
  /-- `panic("virtio_disk_intr status")` -/
  | intrStatus
  /-- An index outside its table. -/
  | outOfBounds
  /-- A null buffer pointer. -/
  | nullBuf
  /-- The device reads a chain that is not a request. -/
  | badChain
  /-- A loop that goes on. -/
  | diverge
  deriving DecidableEq, Repr

/-- The addresses processes wait at, and the locks they spin on. -/
inductive Chan (β : Type) where
  /-- `&disk.free[0]` -/
  | free
  | buf (b : β)
  | vdiskLock
  | sleeplock (b : β)
  deriving DecidableEq, Repr

variable {ι κ β : Type} [DecidableEq β]

/-- Programs over the driver's state. -/
abbrev Code (ι κ β α : Type) := Prog (Agent ι κ) (Chan β) Halt (State ι κ β) α

/-! ## Descriptors -/

/-- `alloc_desc` -/
def allocDesc : Cmd (State ι κ β) Halt (Option DescId) := fun s =>
  match (List.finRange num).find? s.free with
  | some i => .ok (some i, { s with free := update s.free i false })
  | none => .ok (none, s)

/-- `free_desc`, up to its wakeup. -/
def freeDesc (i : ℕ) : Cmd (State ι κ β) Halt Unit := fun s =>
  if h : i < num then
    if s.free ⟨i, h⟩ then .error .freeDesc2
    else .ok ((), { s with
      desc := update s.desc ⟨i, h⟩ Desc.zero
      free := update s.free ⟨i, h⟩ true })
  else .error .freeDesc1

/-- `free_chain`, for at most so many descriptors. -/
def freeChain : (fuel i : ℕ) → Cmd (State ι κ β) Halt Unit
  | 0, _ => fail .diverge
  | fuel + 1, i => do
    let s ← get
    -- reading past the table is followed by the same panic
    if h : i < num then
      freeDesc i
      if (s.desc ⟨i, h⟩).flags &&& descNext ≠ 0 then freeChain fuel (s.desc ⟨i, h⟩).next.toNat
      else pure ()
    else fail .freeDesc1

/-- `alloc3_desc`, with its loop written out. -/
def alloc3Desc : Cmd (State ι κ β) Halt (Option (DescId × DescId × DescId)) := do
  match ← allocDesc with
  | none => pure none
  | some i =>
    match ← allocDesc with
    | none =>
      freeDesc i
      pure none
    | some j =>
      match ← allocDesc with
      | none =>
        freeDesc i
        freeDesc j
        pure none
      | some k => pure (some (i, j, k))

/-! ## Requests -/

/-- The index of a descriptor, as the avail ring and the descriptors hold it. -/
def id16 (i : DescId) : UInt16 := UInt16.ofNat i.val

/-- The index of a descriptor, as the used ring holds it. -/
def id32 (i : DescId) : UInt32 := UInt32.ofNat i.val

/-- An index that is read from memory. -/
def descId (n : ℕ) : Option DescId := if h : n < num then some ⟨n, h⟩ else none

/-- The first descriptor of a request. -/
def headDesc (r : Request β) : Desc β := ⟨.ops r.head, reqSize, descNext, id16 r.data⟩

/-- The second one, for the block. -/
def dataDesc (r : Request β) : Desc β :=
  ⟨.data r.b, UInt32.ofNat bsize, (if r.write then 0 else descWrite) ||| descNext, id16 r.status⟩

/-- The third one, for the status. -/
def statusDesc (r : Request β) : Desc β := ⟨.status r.head, 1, descWrite, 0⟩

/-- What `ops[idx[0]]` says. -/
def blkReq (r : Request β) : BlkReq := ⟨if r.write then blkOut else blkIn, 0, r.sector⟩

/-- `virtio_disk_rw` from the first write to `ops` to the entry in the avail ring. -/
def fill (t : Agent ι κ) (r : Request β) (s : State ι κ β) : State ι κ β :=
  { s with
    ops := update s.ops r.head (blkReq r)
    desc := update (update (update s.desc r.head (headDesc r)) r.data
      (dataDesc r)) r.status (statusDesc r)
    info := update s.info r.head ⟨some r.b, 0xff⟩
    buf := update s.buf r.b { s.buf r.b with disk := true }
    avail := { s.avail with
      ring := update s.avail.ring (Fin.ofNat num s.avail.idx.toNat) (id16 r.head) }
    hist := .submitted t r :: s.hist }

/-- `virtio_disk_rw` up to the entry in the avail ring. The lock is taken and kept. -/
def submit (b : β) (write : Bool) : Code ι κ β (Request β) :=
  .atomic fun t s =>
    match s.vdiskLock with
    | some _ => .sleep .vdiskLock
    | none =>
      match alloc3Desc s with
      | .error e => .halt e
      | .ok (none, _) => .sleep .free
      | .ok (some (i, j, k), s') =>
        let r : Request β := ⟨i, j, k, b, write, ((s.buf b).blockno * 2).toUInt64⟩
        .done r { fill t r s' with vdiskLock := some t } []

/-- `avail->idx += 1` -/
def publish : Code ι κ β Unit :=
  .atomic fun _ s => .done () { s with avail := { s.avail with idx := s.avail.idx + 1 } } []

/-- `virtio_disk_rw` from `info[idx[0]].b = 0` on, with the lock held. -/
def finish (t : Agent ι κ) (r : Request β) : Cmd (State ι κ β) Halt Unit := do
  modify fun s => { s with
    info := update s.info r.head { s.info r.head with b := none } }
  freeChain (num + 1) r.head
  modify fun s => { s with vdiskLock := none, hist := .returned t r :: s.hist }

/-- The first test of `b->disk`, with the lock still held. -/
def firstTest (r : Request β) : Code ι κ β Bool :=
  .atomic fun t s =>
    if (s.buf r.b).disk then .done true { s with vdiskLock := none } [.vdiskLock]
    else
      match finish t r s with
      | .error e => .halt e
      | .ok ((), s') => .done false s' [.free, .vdiskLock]

/-- The tests of `b->disk` after a sleep. -/
def await (r : Request β) : Code ι κ β Unit :=
  .atomic fun t s =>
    match s.vdiskLock with
    | some _ => .sleep .vdiskLock
    | none =>
      if (s.buf r.b).disk then .sleep (.buf r.b)
      else toOutcome [.free, .vdiskLock] (finish t r s)

/-- `virtio_disk_rw` -/
def virtioDiskRw (b : β) (write : Bool) : Code ι κ β Unit := do
  let r ← submit b write
  publish
  let wait ← firstTest r
  if wait then await r else pure ()

/-- `virtio_disk_intr` up to its loop. -/
def enterIntr : Code ι κ β Unit :=
  .atomic fun t s =>
    match s.vdiskLock with
    | some _ => .sleep .vdiskLock
    | none => .done () { s with vdiskLock := some t } []

/-- One turn of the loop of `virtio_disk_intr`: whether there was an entry. -/
def intrTurn : Code ι κ β Bool :=
  .atomic fun _ s =>
    if s.usedIdx = s.used.idx then .done false { s with vdiskLock := none } [.vdiskLock]
    else
      match descId (s.used.ring (Fin.ofNat num s.usedIdx.toNat)).toNat with
      | none => .halt .outOfBounds
      | some i =>
        if (s.info i).status ≠ 0 then .halt .intrStatus
        else
          match (s.info i).b with
          | none => .halt .nullBuf
          | some b =>
            .done true { s with
              buf := update s.buf b { s.buf b with disk := false }
              usedIdx := s.usedIdx + 1
              hist := .served i b :: s.hist } [.buf b]

/-- The loop of `virtio_disk_intr`, for at most so many turns. -/
def intrLoop : (fuel : ℕ) → Code ι κ β Unit
  | 0 => .atomic fun _ _ => .halt .diverge
  | fuel + 1 => do
    let more ← intrTurn
    if more then intrLoop fuel else pure ()

/-- `virtio_disk_intr` -/
def virtioDiskIntr : Code ι κ β Unit := do
  enterIntr
  intrLoop (num + 1)

/-! ## The device -/

/-- What the chain at a head asks for: the operation, the buffer and where the status goes. -/
def readChain (s : State ι κ β) (i : DescId) : Option (BlkReq × β × DescId) :=
  match (s.desc i).addr, descId (s.desc i).next.toNat with
  | .ops o, some j =>
    match (s.desc j).addr, descId (s.desc j).next.toNat with
    | .data b, some k =>
      match (s.desc k).addr with
      | .status x =>
        -- the device writes the block for a read, and the status
        if (s.desc i).len = reqSize ∧ (s.desc i).flags = descNext ∧
            (s.desc j).len = UInt32.ofNat bsize ∧
            (s.desc j).flags = (if (s.ops o).type = blkIn then descWrite else 0) ||| descNext ∧
            (s.desc k).len = 1 ∧ (s.desc k).flags = descWrite then
          some (s.ops o, b, x)
        else none
      | _ => none
    | _, _ => none
  | _, _ => none

/-- The device takes the next head from the avail ring, if there is one. -/
def fetch : Code ι κ β Unit :=
  .atomic fun _ s =>
    if s.seen = s.avail.idx then .done () s []
    else
      match descId (s.avail.ring (Fin.ofNat num s.seen.toNat)).toNat with
      | none => .halt .badChain
      | some i => .done () { s with seen := s.seen + 1, pending := s.pending ++ [i] } []

/-- The device completes a request that it has taken. -/
def complete (i : DescId) : Code ι κ β Unit :=
  .atomic fun _ s =>
    if i ∈ s.pending then
      match readChain s i with
      | none => .halt .badChain
      | some (op, b, x) =>
        .done () { s with
          info := update s.info x { s.info x with status := 0 }
          used := ⟨s.used.idx + 1,
            update s.used.ring (Fin.ofNat num s.used.idx.toNat) (id32 i)⟩
          pending := s.pending.erase i
          hist := .completed i op b :: s.hist } []
    else .done () s []

/-! ## Processes, CPUs and the device -/

/-- `bget`'s `acquiresleep`, after which the buffer is for the block `blockno`. -/
def acquiresleep (b : β) (blockno : UInt32) : Code ι κ β Unit :=
  .atomic fun t s =>
    match (s.buf b).lock with
    | some _ => .sleep (.sleeplock b)
    | none => .done () { s with
        buf := update s.buf b { s.buf b with lock := some t, blockno := blockno } } []

/-- `brelse`'s `releasesleep` -/
def releasesleep (b : β) : Code ι κ β Unit :=
  .atomic fun _ s => .done () { s with
    buf := update s.buf b { s.buf b with lock := none } } [.sleeplock b]

/-- Reads and writes of one buffer. -/
def rws (b : β) : List Bool → Code ι κ β Unit
  | [] => pure ()
  | write :: ops => do
    virtioDiskRw b write
    rws b ops

/-- What the agents do: a process locks a buffer, reads and writes it and unlocks it, a CPU takes
the disk's interrupt, and the device goes on with its work. -/
inductive Call (β : Type) where
  | use (b : β) (blockno : UInt32) (ops : List Bool)
  | intr
  | fetch
  | complete (i : DescId)

/-- The code of a call. -/
def Call.code : Call β → Code ι κ β Unit
  | .use b blockno ops => do
    acquiresleep b blockno
    rws b ops
    releasesleep b
  | .intr => virtioDiskIntr
  | .fetch => Virtio.fetch
  | .complete i => Virtio.complete i

/-- Who makes which call. -/
def Call.by : Call β → Agent ι κ → Bool
  | .use .., .proc _ => true
  | .intr, .cpu _ => true
  | .fetch, .device => true
  | .complete _, .device => true
  | _, _ => false

/-- Any number of processes and CPUs on one disk. -/
def system (ι κ β : Type) [DecidableEq β] : System (Agent ι κ) (Chan β) Halt (State ι κ β) where
  Call := Call β
  code := Call.code
  may t c _ := c.by t = true
  resets := False
  reset := id
  boot := .ret ()

/-- The state `virtio_disk_init` leaves. -/
def init (ι κ β : Type) : State ι κ β where
  desc _ := Desc.zero
  avail := ⟨0, fun _ => 0⟩
  used := ⟨0, fun _ => 0⟩
  free _ := true
  usedIdx := 0
  info _ := ⟨none, 0⟩
  ops _ := ⟨0, 0, 0⟩
  vdiskLock := none
  buf _ := ⟨0, false, none⟩
  seen := 0
  pending := []
  hist := []

end Virtio

end TrinityXv6
