import TrinityXv6.Fs.Dir

/-!
# Files and system calls: `kernel/file.c`, `kernel/sysfile.c`

The open files and the system calls of the file system. A path argument is `none` where `argstr`
fails. What a device driver computes is not the file system's, so its result is an argument of the
call.
-/

namespace TrinityXv6

namespace Fs

open Threads Command

variable {τ : Type} [DecidableEq τ] (sb : Superblock)

/-! ## Open files -/

/-- `filealloc` -/
def filealloc : F τ (Option FileId) := fun s =>
  match (List.finRange nFile).find? fun f => (s.ftable f).ref = 0 with
  | some f => .ok (some f, s.setFile f { s.ftable f with ref := 1 })
  | none => .ok (none, s)

/-- `filedup` -/
def filedup (f : FileId) : F τ Unit := fun s =>
  if (s.ftable f).ref < 1 then .error .filedup
  else .ok ((), s.setFile f { s.ftable f with ref := (s.ftable f).ref + 1 })

/-- An open file. -/
def file (f : FileId) : M τ File := .cmd fun _ s => .ok (s.ftable f, s)

/-- The critical section of `fileclose`: what the file was, if this closed it. -/
def filecloseEnter (f : FileId) : F τ (Option File) := fun s =>
  let x := s.ftable f
  if x.ref < 1 then .error .fileclose
  else if 1 < x.ref then .ok (none, s.setFile f { x with ref := x.ref - 1 })
  else .ok (some x, s.setFile f { x with ref := 0, type := .none })

/-- `fileclose` -/
def fileclose (f : FileId) : M τ Unit := do
  match ← (.cmd fun _ => filecloseEnter f : M τ (Option File)) with
  | none => pure ()
  | some ff =>
    if ff.type = .inode ∨ ff.type = .device then do
      beginOp
      iput sb ff.ip
      endOp
    else pure ()

/-- What `fileread` does under the lock of the inode. -/
def filereadLocked (t : τ) (f : FileId) (ip : Slot) (dst : Dest) (n : ℕ) : F τ ℤ := fun s =>
  (do
    let r ← readi sb t ip dst (s.ftable f).off.toNat n
    if 0 < r.1 then
      modify fun s => s.setFile f { s.ftable f with
        off := (s.ftable f).off + UInt32.ofNat r.1.toNat }
    else pure ()
    pure r.1 : F τ ℤ) s

/-- `fileread`. The driver of a device returns `dev`. -/
def fileread (f : FileId) (dst : Dest) (n : ℤ) (dev : Option ℤ) : M τ ℤ := do
  let x ← file f
  if x.readable = false ∨ n < 0 then pure (-1)
  else
    match x.type with
    | .device => pure (if x.major < 0 ∨ nDev ≤ x.major then -1 else dev.getD (-1))
    | .inode => do
      ilock sb x.ip
      let r ← (.cmd fun t => filereadLocked sb t f x.ip dst n.toNat : M τ ℤ)
      iunlock x.ip
      pure r
    | .none => .cmd fun _ => fail .fileread

/-- What one turn of the loop of `filewrite` does under the lock of the inode. -/
def filewriteLocked (t : τ) (f : FileId) (ip : Slot) (src : Source) (n : ℕ) : F τ ℤ := fun s =>
  (do
    let r ← writei sb t ip src (s.ftable f).off.toNat n
    if 0 < r then
      modify fun s => s.setFile f { s.ftable f with
        off := (s.ftable f).off + UInt32.ofNat r.toNat }
    else pure ()
    pure r : F τ ℤ) s

/-- The most one turn of `filewrite` writes: `((MAXOPBLOCKS - 1 - 1 - 2) / 2) * BSIZE`. -/
abbrev filewriteMax : ℕ := (maxOpBlocks - 1 - 1 - 2) / 2 * bsize

/-- One turn of the loop of `filewrite`: a bracket of its own. -/
def filewriteOne (f : FileId) (ip : Slot) (src : Source) (n : ℕ) : M τ ℤ := do
  beginOp
  ilock sb ip
  let r ← (.cmd fun t => filewriteLocked sb t f ip src n : M τ ℤ)
  iunlock ip
  endOp
  pure r

/-- The loop of `filewrite`: how much was written in whole turns. -/
def filewriteFrom (f : FileId) (ip : Slot) (src : Source) (n : ℕ) : (fuel i : ℕ) → M τ ℕ
  | 0, i => pure i
  | fuel + 1, i =>
    if i < n then do
      let n1 := min (n - i) filewriteMax
      let r ← filewriteOne sb f ip (src.drop i) n1
      if r = n1 then filewriteFrom f ip src n fuel (i + n1) else pure i
    else pure i

/-- `filewrite`. The driver of a device returns `dev`. -/
def filewrite (f : FileId) (src : Source) (n : ℤ) (dev : Option ℤ) : M τ ℤ := do
  let x ← file f
  if x.writable = false ∨ n < 0 then pure (-1)
  else
    match x.type with
    | .device => pure (if x.major < 0 ∨ nDev ≤ x.major then -1 else dev.getD (-1))
    | .inode => do
      let i ← filewriteFrom sb f x.ip src n.toNat n.toNat 0
      pure (if i = n.toNat then n else -1)
    | .none => .cmd fun _ => fail .filewrite

/-! ## Descriptors -/

/-- A descriptor of the calling process. -/
def ofile (fd : Fd) : M τ (Option FileId) := .cmd fun t s => .ok ((s.proc t).ofile fd, s)

/-- Replace a descriptor of the calling process. -/
def setOfile (t : τ) (fd : Fd) (f : Option FileId) (s : State τ) : State τ :=
  s.setProc t { s.proc t with ofile := Function.update (s.proc t).ofile fd f }

/-- Replace the current directory of a process. -/
def setCwd (t : τ) (ip : Option Slot) (s : State τ) : State τ :=
  s.setProc t { s.proc t with cwd := ip }

/-- `fdalloc` -/
def fdalloc (t : τ) (f : FileId) : F τ (Option Fd) := fun s =>
  match (List.finRange nOfile).find? fun fd => (s.proc t).ofile fd = none with
  | some fd => .ok (some fd, setOfile t fd (some f) s)
  | none => .ok (none, s)

/-- `sys_dup` -/
def sysDup (fd : Fd) : M τ ℤ := do
  match ← ofile fd with
  | none => pure (-1)
  | some f => .cmd fun t => do
    match ← fdalloc t f with
    | none => pure (-1)
    | some fd' => do
      filedup f
      pure fd'.val

/-- `sys_read` -/
def sysRead (fd : Fd) (dst : Dest) (n : ℤ) (dev : Option ℤ) : M τ ℤ := do
  match ← ofile fd with
  | none => pure (-1)
  | some f => fileread sb f dst n dev

/-- `sys_write` -/
def sysWrite (fd : Fd) (src : Source) (n : ℤ) (dev : Option ℤ) : M τ ℤ := do
  match ← ofile fd with
  | none => pure (-1)
  | some f => filewrite sb f src n dev

/-- `sys_close` -/
def sysClose (fd : Fd) : M τ ℤ := do
  match ← (.cmd fun t s => .ok ((s.proc t).ofile fd, setOfile t fd none s) :
      M τ (Option FileId)) with
  | none => pure (-1)
  | some f => do
    fileclose sb f
    pure 0

/-! ## The name space -/

/-- A path argument: `argstr` reads up to the first zero, or fails. -/
abbrev Path := Option (List UInt8)

/-- `argstr` -/
def argstr (path : Path) : Path := path.map fun p => p.takeWhile (· ≠ 0)

/-- Add to the link count of an inode in memory and write it to disk. -/
def addLink (ip : Slot) (n : Int16) : M τ Unit := .cmd fun t => do
  setDin ip fun d => { d with nlink := d.nlink + n }
  iupdate sb t ip

/-- The number of an inode. -/
def inum (ip : Slot) : M τ ℕ := .cmd fun _ s => .ok ((s.itable ip).inum, s)

/-- The label `bad` of `sys_link`. -/
def sysLinkBad (ip : Slot) : M τ ℤ := do
  ilock sb ip
  addLink sb ip (-1)
  iunlockput sb ip
  endOp
  pure (-1)

/-- `sys_link` once the link count of `ip` is raised. -/
def sysLinkEntry (ip : Slot) (new : List UInt8) : M τ ℤ := do
  match ← nameiparent sb new with
  | none => sysLinkBad sb ip
  | some (dp, name) => do
    ilock sb dp
    let x ← din dp
    if x.nlink = 0 then do
      iunlockput sb dp
      sysLinkBad sb ip
    else do
      let i ← inum ip
      let r ← dirlink sb dp name i
      if r < 0 then do
        iunlockput sb dp
        sysLinkBad sb ip
      else do
        iunlockput sb dp
        iput sb ip
        endOp
        pure 0

/-- `sys_link` -/
def sysLink (old new : Path) : M τ ℤ :=
  match argstr old, argstr new with
  | some old, some new => do
    beginOp
    match ← namei sb old with
    | none => do
      endOp
      pure (-1)
    | some ip => do
      ilock sb ip
      let x ← din ip
      if x.type = tDir then do
        iunlockput sb ip
        endOp
        pure (-1)
      else if nlinkMax ≤ x.nlink then do
        iunlockput sb ip
        endOp
        pure (-1)
      else do
        addLink sb ip 1
        iunlock ip
        sysLinkEntry sb ip new
  | _, _ => pure (-1)

/-- The loop of `isdirempty`. -/
def isdiremptyFrom (t : τ) (dp : Slot) : (fuel off : ℕ) → F τ Bool
  | 0, _ => pure true
  | fuel + 1, off => do
    let x ← inode dp
    if off < x.din.size.toNat then do
      let de ← readDirent sb t .isdirempty dp off
      if direntInum de = 0 then isdiremptyFrom t dp fuel (off + direntSize) else pure false
    else pure true

/-- `isdirempty` -/
def isdirempty (t : τ) (dp : Slot) : F τ Bool := do
  let x ← inode dp
  isdiremptyFrom sb t dp (x.din.size.toNat / direntSize + 1) (2 * direntSize)

/-- `sys_unlink` with the directory and the inode locked: clear the entry, unless the inode is a
directory that is not empty. -/
def unlinkEntry (t : τ) (dp ip : Slot) (off : ℕ) : F τ Bool := do
  let x ← inode ip
  if x.din.nlink < 1 then fail .unlinkNlink
  else do
    let empty ← if x.din.type = tDir then isdirempty sb t ip else pure true
    if empty then do
      let r ← writei sb t dp (.kernel fun _ => 0) off direntSize
      if r = direntSize then
        if x.din.type = tDir then do
          setDin dp fun d => { d with nlink := d.nlink - 1 }
          iupdate sb t dp
        else pure ()
      else fail .unlinkWritei
      pure true
    else pure false

/-- The label `bad` of `sys_unlink`. -/
def sysUnlinkBad (dp : Slot) : M τ ℤ := do
  iunlockput sb dp
  endOp
  pure (-1)

/-- `sys_unlink` -/
def sysUnlink (path : Path) : M τ ℤ :=
  match argstr path with
  | none => pure (-1)
  | some path => do
    beginOp
    match ← nameiparent sb path with
    | none => do
      endOp
      pure (-1)
    | some (dp, name) => do
      ilock sb dp
      if namecmp name dot ∨ namecmp name dotdot then sysUnlinkBad sb dp
      else
        match ← (.cmd fun t => dirlookup sb t dp name : M τ (Option (Slot × ℕ))) with
        | none => sysUnlinkBad sb dp
        | some (ip, off) => do
          ilock sb ip
          if ← (.cmd fun t => unlinkEntry sb t dp ip off : M τ Bool) then do
            iunlockput sb dp
            addLink sb ip (-1)
            iunlockput sb ip
            endOp
            pure 0
          else do
            iunlockput sb ip
            sysUnlinkBad sb dp

/-- The label `fail` of `create`. -/
def createFail (dp ip : Slot) : M τ (Option Slot) := do
  .cmd fun t => do
    setDin ip fun d => { d with nlink := 0 }
    iupdate sb t ip
  iunlockput sb ip
  iunlockput sb dp
  pure none

/-- The entries `"."` and `".."` of a new directory. -/
def createDots (dp ip : Slot) : M τ Bool := do
  let i ← inum ip
  let r ← dirlink sb ip dot i
  if r < 0 then pure false
  else do
    let j ← inum dp
    let r ← dirlink sb ip dotdot j
    pure (¬ r < 0)

/-- `create` with the parent locked and a new inode allocated. -/
def createNew (dp : Slot) (name : List UInt8) (type major minor : Int16) (ip : Slot) :
    M τ (Option Slot) := do
  ilock sb ip
  .cmd fun t => do
    setDin ip fun d => { d with major := major, minor := minor, nlink := 1 }
    iupdate sb t ip
  let ok ← if type = tDir then createDots sb dp ip else pure true
  if ok then do
    let i ← inum ip
    let r ← dirlink sb dp name i
    if r < 0 then createFail sb dp ip
    else do
      if type = tDir then addLink sb dp 1 else pure ()
      iunlockput sb dp
      pure (some ip)
  else createFail sb dp ip

/-- `create`: the inode, locked. -/
def create (path : List UInt8) (type major minor : Int16) : M τ (Option Slot) := do
  match ← nameiparent sb path with
  | none => pure none
  | some (dp, name) => do
    ilock sb dp
    let x ← din dp
    if x.nlink = 0 then do
      iunlockput sb dp
      pure none
    else if type = tDir ∧ nlinkMax ≤ x.nlink then do
      iunlockput sb dp
      pure none
    else
      match ← (.cmd fun t => dirlookup sb t dp name : M τ (Option (Slot × ℕ))) with
      | some (ip, _) => do
        iunlockput sb dp
        ilock sb ip
        let y ← din ip
        if type = tFile ∧ (y.type = tFile ∨ y.type = tDevice) then pure (some ip)
        else do
          iunlockput sb ip
          pure none
      | none =>
        match ← (.cmd fun t => ialloc sb t type : M τ (Option Slot)) with
        | none => do
          iunlockput sb dp
          pure none
        | some ip => createNew sb dp name type major minor ip

/-! ## The modes of `open` -/

/-- `omode & O_WRONLY` -/
def oWronly (omode : ℕ) : Bool := omode.testBit 0

/-- `omode & O_RDWR` -/
def oRdwr (omode : ℕ) : Bool := omode.testBit 1

/-- `omode & O_CREATE` -/
def oCreate (omode : ℕ) : Bool := omode.testBit 9

/-- `omode & O_TRUNC` -/
def oTrunc (omode : ℕ) : Bool := omode.testBit 10

/-- `O_RDONLY` -/
abbrev oRdonly : ℕ := 0

/-- The first half of `sys_open`: the inode, locked. -/
def openInode (path : List UInt8) (omode : ℕ) : M τ (Option Slot) :=
  if oCreate omode then create sb path tFile 0 0
  else do
    match ← namei sb path with
    | none => pure none
    | some ip => do
      ilock sb ip
      let x ← din ip
      if x.type = tDir ∧ omode ≠ oRdonly then do
        iunlockput sb ip
        pure none
      else pure (some ip)

/-- Fill in the open file, and truncate the inode if asked to. -/
def openFile (t : τ) (f : FileId) (ip : Slot) (omode : ℕ) : F τ Unit := do
  let x ← inode ip
  modify fun s => s.setFile f { s.ftable f with
    type := if x.din.type = tDevice then .device else .inode
    off := if x.din.type = tDevice then (s.ftable f).off else 0
    major := if x.din.type = tDevice then x.din.major else (s.ftable f).major
    ip := ip
    readable := !oWronly omode
    writable := oWronly omode || oRdwr omode }
  if oTrunc omode ∧ x.din.type = tFile then itrunc sb t ip else pure ()

/-- Give up on `sys_open` with the inode locked. -/
def openFail (ip : Slot) : M τ ℤ := do
  iunlockput sb ip
  endOp
  pure (-1)

/-- `sys_open` -/
def sysOpen (path : Path) (omode : ℕ) : M τ ℤ :=
  match argstr path with
  | none => pure (-1)
  | some path => do
    beginOp
    match ← openInode sb path omode with
    | none => do
      endOp
      pure (-1)
    | some ip => do
      let x ← din ip
      if x.type = tDevice ∧ (x.major < 0 ∨ nDev ≤ x.major) then openFail sb ip
      else
        match ← (.cmd fun _ => filealloc : M τ (Option FileId)) with
        | none => openFail sb ip
        | some f =>
          match ← (.cmd fun t => fdalloc t f : M τ (Option Fd)) with
          | none => do
            fileclose sb f
            openFail sb ip
          | some fd => do
            .cmd fun t => openFile sb t f ip omode
            iunlock ip
            endOp
            pure fd.val

/-- `create`, `iunlockput` and the end of the bracket, as in `sys_mkdir` and `sys_mknod`. -/
def sysCreate (path : Path) (type major minor : Int16) : M τ ℤ := do
  beginOp
  match argstr path with
  | none => do
    endOp
    pure (-1)
  | some path =>
    match ← create sb path type major minor with
    | none => do
      endOp
      pure (-1)
    | some ip => do
      iunlockput sb ip
      endOp
      pure 0

/-- `sys_mkdir` -/
def sysMkdir (path : Path) : M τ ℤ := sysCreate sb path tDir 0 0

/-- `sys_mknod` -/
def sysMknod (path : Path) (major minor : Int16) : M τ ℤ := sysCreate sb path tDevice major minor

/-- The current directory of the calling process. -/
def cwd : M τ Slot := .cmd fun t s =>
  match (s.proc t).cwd with
  | some ip => .ok (ip, s)
  | none => .error .trap

/-- `sys_chdir` -/
def sysChdir (path : Path) : M τ ℤ := do
  beginOp
  match argstr path with
  | none => do
    endOp
    pure (-1)
  | some path =>
    match ← namei sb path with
    | none => do
      endOp
      pure (-1)
    | some ip => do
      ilock sb ip
      let x ← din ip
      if x.type ≠ tDir then do
        iunlockput sb ip
        endOp
        pure (-1)
      else do
        iunlock ip
        let old ← cwd
        iput sb old
        endOp
        .cmd fun t => modify (setCwd t (some ip))
        pure 0

end Fs

end TrinityXv6
