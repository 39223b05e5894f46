import TrinityXv6.Fs.State

/-!
# Blocks and inodes: the code of `kernel/fs.c` up to `writei`

Each function of the source under its own name. What runs without giving up a lock of an inode is
a command; the functions that take or release such locks, or the lock of the inode table, are
programs, and other processes run between the steps of a program.

The loops of the source that have no bound of their own are given fuel that they cannot use up:
each turn of `readi` and `writei` copies at least one byte.

A copy to or from user memory may fault. Where it does so is an argument of the call: any result a
page table could give is one of these.
-/

namespace TrinityXv6

namespace Fs

open Threads Command

variable {τ : Type} [DecidableEq τ] (sb : Superblock) (t : τ)

/-- The contents of a block. -/
def bread (b : ℕ) : F τ Blk := fun s => .ok (s.blocks b, s)

/-- Change a block and hand it to `log_write`. -/
def logWrite (b : ℕ) (d : Blk) : F τ Unit := fun s =>
  if s.ops.length < 1 then .error .logWriteOutside
  else .ok ((), { s with blocks := Function.update s.blocks b d, ops := Log.logOp t b s.ops })

/-- `bzero` -/
def bzero (b : ℕ) : F τ Unit := logWrite t b fun _ => 0

/-! ## The bitmap -/

/-- The inner loop of `balloc`: the first clear bit among those of the block that holds bit `b`. -/
def ballocIn (b : ℕ) : F τ (Option ℕ) := do
  let d ← bread (sb.bblock b)
  match (List.range (min bpb (sb.size - b))).find? fun bi => !Bytes.bit d bi with
  | none => pure none
  | some bi => do
    logWrite t (sb.bblock b) (Bytes.putBit d bi true)
    bzero t (b + bi)
    pure (some (b + bi))

/-- The outer loop of `balloc`, over `n` blocks of the bitmap. -/
def ballocFrom : (n b : ℕ) → F τ UInt32
  | 0, _ => pure 0
  | n + 1, b => do
    match ← ballocIn sb t b with
    | some a => pure (UInt32.ofNat a)
    | none => ballocFrom n (b + bpb)

/-- `balloc`: a zeroed block, or `0`. -/
def balloc : F τ UInt32 := ballocFrom sb t ((sb.size + bpb - 1) / bpb) 0

/-- `bfree` -/
def bfree (b : ℕ) : F τ Unit := do
  let d ← bread (sb.bblock b)
  if Bytes.bit d (b % bpb) then logWrite t (sb.bblock b) (Bytes.putBit d (b % bpb) false)
  else fail .freeingFreeBlock

/-! ## The inode table -/

/-- The fields of an inode in memory. -/
def inode (ip : Slot) : F τ (Inode τ) := fun s => .ok (s.itable ip, s)

/-- Change the copy of the disk's fields in an inode in memory. -/
def setDin (ip : Slot) (f : Dinode → Dinode) : F τ Unit :=
  modify fun s => s.setDin ip (f (s.itable ip).din)

/-- `iget` -/
def iget (inum : ℕ) : F τ Slot := fun s =>
  match (List.finRange nInode).find? fun i => 0 < (s.itable i).ref ∧ (s.itable i).inum = inum with
  | some i => .ok (i, s.setInode i { s.itable i with ref := (s.itable i).ref + 1 })
  | none =>
    match (List.finRange nInode).find? fun i => (s.itable i).ref = 0 with
    | some i => .ok (i, s.setInode i { s.itable i with inum := inum, ref := 1, valid := false })
    | none => .error .igetNoInodes

/-- The loop of `ialloc`, over `n` inodes. -/
def iallocFrom (type : Int16) : (n inum : ℕ) → F τ (Option Slot)
  | 0, _ => pure none
  | n + 1, inum => do
    let d ← bread (sb.iblock inum)
    if (getDinode d (inum % ipb)).type = 0 then do
      logWrite t (sb.iblock inum) (putDinode d (inum % ipb) { Dinode.zero with type := type })
      let ip ← iget inum
      pure (some ip)
    else iallocFrom type n (inum + 1)

/-- `ialloc` -/
def ialloc (type : Int16) : F τ (Option Slot) := iallocFrom sb t type (sb.ninodes - 1) 1

/-- `iupdate` -/
def iupdate (ip : Slot) : F τ Unit := do
  let x ← inode ip
  let d ← bread (sb.iblock x.inum)
  logWrite t (sb.iblock x.inum) (putDinode d (x.inum % ipb) x.din)

/-- `ifree` -/
def ifree (inum : ℕ) : F τ Unit := do
  let d ← bread (sb.iblock inum)
  logWrite t (sb.iblock inum) (putType d (inum % ipb) 0)

/-! ## The blocks of an inode -/

/-- `ip->addrs[k] = a` -/
def setAddr (ip : Slot) (k : Fin (ndirect + 1)) (a : UInt32) : F τ Unit :=
  setDin ip fun d => { d with addrs := Function.update d.addrs k a }

/-- The index of the indirect block in `addrs`. -/
abbrev rootSlot : Fin (ndirect + 1) := Fin.last ndirect

/-- The address at index `k` of `addrs`, allocated if there is none. -/
def bmapAddr (ip : Slot) (k : Fin (ndirect + 1)) : F τ UInt32 := do
  let x ← inode ip
  if x.din.addrs k = 0 then do
    let a ← balloc sb t
    if a = 0 then pure 0
    else do
      setAddr ip k a
      pure a
  else pure (x.din.addrs k)

/-- The address at index `j` of the indirect block `root`, allocated if there is none. -/
def bmapEntry (root : ℕ) (j : ℕ) : F τ UInt32 := do
  let d ← bread root
  let a := Bytes.getU32 d (4 * j)
  if a = 0 then do
    let a ← balloc sb t
    if a = 0 then pure 0
    else do
      logWrite t root (Bytes.putU32 d (4 * j) a)
      pure a
  else pure a

/-- `bmap` -/
def bmap (ip : Slot) (bn : ℕ) : F τ UInt32 :=
  if h : bn < ndirect then bmapAddr sb t ip ⟨bn, Nat.lt_succ_of_lt h⟩
  else if bn - ndirect < nindirect then do
    let root ← bmapAddr sb t ip rootSlot
    if root = 0 then pure 0 else bmapEntry sb t root.toNat (bn - ndirect)
  else fail .bmapOutOfRange

/-- Free the block at index `i` of `addrs`, if there is one. -/
def itruncAddr (ip : Slot) (i : Fin (ndirect + 1)) : F τ Unit := do
  let x ← inode ip
  if x.din.addrs i = 0 then pure ()
  else do
    bfree sb t (x.din.addrs i).toNat
    setAddr ip i 0

/-- Free the block at index `j` of an indirect block with contents `d`, if there is one. -/
def itruncEntry (d : Blk) (j : ℕ) : F τ Unit :=
  if Bytes.getU32 d (4 * j) = 0 then pure () else bfree sb t (Bytes.getU32 d (4 * j)).toNat

/-- The second half of `itrunc`: the indirect block and the blocks it names. -/
def itruncRoot (ip : Slot) : F τ Unit := do
  let x ← inode ip
  if x.din.addrs rootSlot = 0 then pure ()
  else do
    let d ← bread (x.din.addrs rootSlot).toNat
    loop (itruncEntry sb t d) 0 nindirect
    itruncAddr sb t ip rootSlot

/-- `itrunc` -/
def itrunc (ip : Slot) : F τ Unit := do
  loop (fun i => itruncAddr sb t ip (Fin.ofNat (ndirect + 1) i)) 0 ndirect
  itruncRoot sb t ip
  setDin ip fun d => { d with size := 0 }
  iupdate sb t ip

/-! ## Reading and writing -/

/-- Where `either_copyout` succeeds: the bytes copied so far, and how many come next. -/
abbrev Dest := ℕ → ℕ → Bool

/-- The loop of `readi`. -/
def readiFrom (ip : Slot) (dst : Dest) (n : ℕ) :
    (fuel tot off : ℕ) → List UInt8 → F τ (ℤ × List UInt8)
  | 0, tot, _, acc => pure (tot, acc)
  | fuel + 1, tot, off, acc =>
    if tot < n then do
      let a ← bmap sb t ip (off / bsize)
      if a = 0 then pure (tot, acc)
      else do
        let d ← bread a.toNat
        let m := min (n - tot) (bsize - off % bsize)
        if dst tot m then
          readiFrom ip dst n fuel (tot + m) (off + m)
            (acc ++ (List.range m).map fun p => Bytes.byte d (off % bsize + p))
        else pure (-1, acc)
    else pure (tot, acc)

/-- `readi`: the number of bytes read, and the bytes. -/
def readi (ip : Slot) (dst : Dest) (off n : ℕ) : F τ (ℤ × List UInt8) := do
  let x ← inode ip
  let size := x.din.size.toNat
  if size < off ∨ 2 ^ 32 ≤ off + n then pure (0, [])
  else
    let n := if size < off + n then size - off else n
    readiFrom sb t ip dst n n 0 off []

/-- The bytes `either_copyin` reads, and where it faults: after how many of the bytes that come
next. -/
structure Source where
  data : ℕ → UInt8
  fault : ℕ → ℕ → Option ℕ

/-- Bytes in the kernel's own memory. -/
def Source.kernel (data : ℕ → UInt8) : Source := ⟨data, fun _ _ => none⟩

/-- The source from its byte `i` on. -/
def Source.drop (src : Source) (i : ℕ) : Source :=
  ⟨fun p => src.data (i + p), fun tot m => src.fault (i + tot) m⟩

/-- The loop of `writei`: how much was written, and the offset it ended at. -/
def writeiFrom (ip : Slot) (src : Source) (n : ℕ) : (fuel tot off : ℕ) → F τ (ℕ × ℕ)
  | 0, tot, off => pure (tot, off)
  | fuel + 1, tot, off =>
    if tot < n then do
      let a ← bmap sb t ip (off / bsize)
      if a = 0 then pure (tot, off)
      else do
        let d ← bread a.toNat
        let m := min (n - tot) (bsize - off % bsize)
        match src.fault tot m with
        | some k => do
          logWrite t a.toNat
            (Bytes.splice d (off % bsize) (min k m) fun p => src.data (tot + p))
          pure (tot, off)
        | none => do
          logWrite t a.toNat (Bytes.splice d (off % bsize) m fun p => src.data (tot + p))
          writeiFrom ip src n fuel (tot + m) (off + m)
    else pure (tot, off)

/-- The end of `writei`: `if (off > ip->size) ip->size = off`. -/
def growSize (ip : Slot) (off : ℕ) : F τ Unit := do
  let x ← inode ip
  if x.din.size.toNat < off then setDin ip fun d => { d with size := UInt32.ofNat off }
  else pure ()

/-- `writei` -/
def writei (ip : Slot) (src : Source) (off n : ℕ) : F τ ℤ := do
  let x ← inode ip
  if x.din.size.toNat < off ∨ 2 ^ 32 ≤ off + n then pure (-1)
  else if maxFile * bsize < off + n then pure (-1)
  else do
    let r ← writeiFrom sb t ip src n n 0 off
    growSize ip r.2
    iupdate sb t ip
    pure r.1

/-! ## Brackets, references and locks -/

/-- `begin_op`. Waiting for room in the log is `TrinityXv6.Log`'s matter. -/
def beginOp : M τ Unit := .cmd fun t => modify fun s => { s with ops := (t, []) :: s.ops }

/-- `end_op` -/
def endOp : M τ Unit := .cmd fun t => modify fun s => { s with ops := s.ops.filter (·.1 ≠ t) }

/-- `idup` -/
def idup (ip : Slot) : F τ Slot := fun s =>
  .ok (ip, s.setInode ip { s.itable ip with ref := (s.itable ip).ref + 1 })

/-- Read the copy of the disk's fields in an inode in memory. -/
def din (ip : Slot) : M τ Dinode := .cmd fun _ s => .ok ((s.itable ip).din, s)

/-- `ilock` -/
def ilock (ip : Slot) : M τ Unit := .atomic fun t s =>
  let x := s.itable ip
  if x.ref < 1 then .halt .ilock
  else
    match x.lock with
    | some _ => .sleep (.inode ip)
    | none =>
      if x.valid then .done () (s.setInode ip { x with lock := some t }) []
      else
        let d := getDinode (s.blocks (sb.iblock x.inum)) (x.inum % ipb)
        if d.type = 0 then .halt .ilockNoType
        else .done () (s.setInode ip { x with lock := some t, valid := true, din := d }) []

/-- `iunlock` -/
def iunlock (ip : Slot) : M τ Unit := .atomic fun t s =>
  let x := s.itable ip
  if x.lock ≠ some t ∨ x.ref < 1 then .halt .iunlock
  else .done () (s.setInode ip { x with lock := none }) [.inode ip]

/-- The first critical section of `iput`: whether this is the last reference to an inode that has
no links, in which case the inode is locked, and the number of the inode. -/
def iputEnter (ip : Slot) : M τ (Bool × ℕ) := .atomic fun t s =>
  let x := s.itable ip
  if x.ref = 1 ∧ x.valid ∧ x.din.nlink = 0 then
    match x.lock with
    | some _ => .sleep (.inode ip)
    | none => .done (true, x.inum) (s.setInode ip { x with lock := some t }) []
  else .done (false, x.inum) (s.setInode ip { x with ref := x.ref - 1 }) []

/-- What `iput` does under the lock of an inode that goes away. -/
def iputTrunc (ip : Slot) : M τ Unit := .atomic fun t s =>
  toOutcome [.inode ip] <| (do
    itrunc sb t ip
    modify fun s => s.setInode ip { s.itable ip with valid := false, lock := none } : F τ Unit) s

/-- `ip->ref--`, in the second critical section of `iput`. -/
def iputDrop (ip : Slot) : M τ Unit := .cmd fun _ =>
  modify fun s => s.setInode ip { s.itable ip with ref := (s.itable ip).ref - 1 }

/-- `iput` -/
def iput (ip : Slot) : M τ Unit := do
  let (last, inum) ← iputEnter ip
  if last then do
    iputTrunc sb ip
    iputDrop ip
    .cmd fun t => ifree sb t inum
  else pure ()

/-- `iunlockput` -/
def iunlockput (ip : Slot) : M τ Unit := do
  iunlock ip
  iput sb ip

/-- One turn of the loop of `ireclaim`. -/
def ireclaimOne (inum : ℕ) : M τ Unit := do
  let ip ← (.cmd fun _ => do
    let d ← bread (sb.iblock inum)
    let x := getDinode d (inum % ipb)
    if x.type ≠ 0 ∧ x.nlink = 0 then do
      let ip ← iget inum
      pure (some ip)
    else pure none : M τ (Option Slot))
  match ip with
  | none => pure ()
  | some ip => do
    beginOp
    ilock sb ip
    iunlock ip
    iput sb ip
    endOp

/-- The loop of `ireclaim`, over `n` inodes. -/
def ireclaimFrom : (n inum : ℕ) → M τ Unit
  | 0, _ => pure ()
  | n + 1, inum => do
    ireclaimOne sb inum
    ireclaimFrom n (inum + 1)

/-- `ireclaim` -/
def ireclaim : M τ Unit := ireclaimFrom sb (sb.ninodes - 1) 1

end Fs

end TrinityXv6
