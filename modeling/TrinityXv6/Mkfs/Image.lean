import TrinityXv6.Fs.Dir

/-!
# The image builder: `mkfs/mkfs.c`

`mkfs` runs on the host. It writes a file of `FSSIZE` zero sectors, then a superblock, a root
directory and one file for each argument, and last the bitmap. Blocks and inodes are handed out by
two counters, and every change is made by reading a sector and writing it back.

The image is a host file that may grow, so that a read past its end fails where a write does not.
Sectors are found at `sec * BSIZE`, which is computed in 32 bits. Seeks and writes of the image
succeed. The host writes integers with the low byte first, as the image has them.

What `read` returns for an input file is an argument: any chunks that are not empty and fit the
buffer. A `read` that fails ends the loop like one at the end of the file.
-/

namespace TrinityXv6

namespace Mkfs

open Command Fs

/-- `NINODES` -/
abbrev ninodes : ℕ := 200

/-- `FSSIZE`: blocks of the file system. -/
abbrev fssize : ℕ := 2000

abbrev nbitmap : ℕ := fssize / bpb + 1

abbrev ninodeblocks : ℕ := ninodes / ipb + 1

abbrev nlog : ℕ := logBlocks + 1

/-- Boot block, superblock, log, inodes, bitmap. -/
abbrev nmeta : ℕ := 2 + nlog + ninodeblocks + nbitmap

abbrev nblocks : ℕ := fssize - nmeta

theorem fssize_eq : fssize = 2000 := rfl

theorem ninodes_eq : ninodes = 200 := rfl

theorem nmeta_eq : nmeta = 47 := rfl

/-- A superblock of the geometry that `main` computes, for any number of inodes. -/
def geometry (n : ℕ) : Superblock where
  size := fssize
  nblocks := nblocks
  ninodes := n
  inodestart := 2 + nlog
  bmapstart := 2 + nlog + ninodeblocks

/-- `sb` -/
def sb : Superblock := geometry ninodes

/-- `FSMAGIC` -/
abbrev fsmagic : UInt32 := 0x10203040

/-- The fields of `struct superblock`, in their order. -/
def superFields : List UInt32 :=
  [fsmagic, UInt32.ofNat sb.size, UInt32.ofNat sb.nblocks, UInt32.ofNat sb.ninodes,
    UInt32.ofNat nlog, 2, UInt32.ofNat sb.inodestart, UInt32.ofNat sb.bmapstart]

def zeroes : Blk := fun _ => 0

/-- The sector that `main` writes `sb` to: its bytes, and zeros. -/
def superBlock : Blk :=
  Bytes.splice zeroes 0 32 fun p => Bytes.byteOf (superFields.getD (p / 4) 0).toNat (p % 4)

/-! ## The image -/

/-- The image with the counters `freeinode` and `freeblock`. The sectors that `winode` wrote are
remembered for the sake of statements about them. -/
structure State where
  sect : ℕ → Blk
  nsect : ℕ
  freeinode : ℕ
  freeblock : ℕ
  inodeWrites : List ℕ

/-- The image after `open`, and the counters before the first allocation. -/
def State.start : State where
  sect _ := zeroes
  nsect := 0
  freeinode := 1
  freeblock := nmeta
  inodeWrites := []

/-- The calls of `die` and the assertions that may fail. -/
inductive Abort where
  | read
  | open (path : List UInt8)
  | rootino
  | slash
  | nameLength
  | fileSize
  | bitmapSize
  deriving DecidableEq, Repr

abbrev Mk := Cmd State Abort

/-- The sector at the offset `sec * BSIZE`, which is an `uint`. -/
@[irreducible]
def sector (sec : ℕ) : ℕ := sec * bsize % 2 ^ 32 / bsize

/-- `rsect` -/
def rsect (sec : ℕ) : Mk Blk := fun s =>
  if sector sec < s.nsect then .ok (s.sect (sector sec), s) else .error .read

/-- `wsect` -/
def wsect (sec : ℕ) (d : Blk) : Mk Unit := modify fun s =>
  { s with
    sect := Function.update s.sect (sector sec) d
    nsect := max s.nsect (sector sec + 1) }

/-- `rinode` -/
def rinode (inum : ℕ) : Mk Dinode := do
  let d ← rsect (sb.iblock inum)
  pure (getDinode d (inum % ipb))

/-- `winode` -/
def winode (inum : ℕ) (x : Dinode) : Mk Unit := do
  let d ← rsect (sb.iblock inum)
  modify fun s => { s with inodeWrites := sector (sb.iblock inum) :: s.inodeWrites }
  wsect (sb.iblock inum) (putDinode d (inum % ipb) x)

/-- `ialloc` -/
def ialloc (type : Int16) : Mk ℕ := do
  let s ← get
  modify fun s => { s with freeinode := s.freeinode + 1 }
  winode s.freeinode { Dinode.zero with type := type, nlink := 1 }
  pure s.freeinode

/-- The bitmap block that `balloc` writes: bits `0` to `used - 1` are set. -/
def bitmap (used : ℕ) : Blk :=
  (List.range used).foldl (fun d i => Bytes.putBit d i true) zeroes

/-- `balloc` -/
def balloc (used : ℕ) : Mk Unit :=
  if used < bpb then wsect sb.bmapstart (bitmap used) else fail .bitmapSize

/-! ## Appending to a file -/

/-- `freeblock++` -/
def nextBlock : Mk UInt32 := fun s =>
  .ok (UInt32.ofNat s.freeblock, { s with freeblock := s.freeblock + 1 })

/-- `if (din.addrs[k] == 0) din.addrs[k] = freeblock++` -/
def addrFor (din : Dinode) (k : Fin (ndirect + 1)) : Mk Dinode :=
  if din.addrs k = 0 then do
    let a ← nextBlock
    pure { din with addrs := Function.update din.addrs k a }
  else pure din

/-- The address at index `j` of the indirect block `root`, from `freeblock++` if there is none. -/
def entryFor (root j : ℕ) : Mk UInt32 := do
  let d ← rsect root
  if Bytes.getU32 d (4 * j) = 0 then do
    let a ← nextBlock
    wsect root (Bytes.putU32 d (4 * j) a)
    pure a
  else pure (Bytes.getU32 d (4 * j))

/-- The part of the loop of `iappend` that finds the block `x`. -/
def blockFor (din : Dinode) (fbn : ℕ) : Mk (Dinode × UInt32) :=
  if h : fbn < ndirect then do
    let din ← addrFor din ⟨fbn, Nat.lt_succ_of_lt h⟩
    pure (din, din.addrs ⟨fbn, Nat.lt_succ_of_lt h⟩)
  else do
    let din ← addrFor din rootSlot
    let x ← entryFor (din.addrs rootSlot).toNat (fbn - ndirect)
    pure (din, x)

/-- The loop of `iappend`: the inode and the offset it ends with. Each turn takes at least one
byte, so that as many turns as there are bytes are enough. -/
def iappendFrom : (fuel : ℕ) → Dinode → (off : ℕ) → List UInt8 → Mk (Dinode × ℕ)
  | 0, din, off, _ => pure (din, off)
  | fuel + 1, din, off, p =>
    if p = [] then pure (din, off)
    else if off / bsize < maxFile then do
      let r ← blockFor din (off / bsize)
      let n1 := min p.length ((off / bsize + 1) * bsize - off)
      let d ← rsect r.2.toNat
      wsect r.2.toNat (Bytes.splice d (off - off / bsize * bsize) n1 fun q => p.getD q 0)
      iappendFrom fuel r.1 (off + n1) (p.drop n1)
    else fail .fileSize

/-- `iappend` -/
def iappend (inum : ℕ) (p : List UInt8) : Mk Unit := do
  let din ← rinode inum
  let r ← iappendFrom p.length din din.size.toNat p
  winode inum { r.1 with size := UInt32.ofNat r.2 }

/-! ## The program -/

/-- An argument of the program: a path, and what `read` returns there, if `open` succeeds. -/
structure Arg where
  path : List UInt8
  file : Option (List (List UInt8))
  nonzero : 0 ∉ path
  chunk : ∀ cs ∈ file, ∀ c ∈ cs, c ≠ [] ∧ c.length ≤ bsize

namespace Arg

variable (a : Arg)

/-- The string `"user/"` -/
def user : List UInt8 := [117, 115, 101, 114, 47]

/-- `shortname` where it is checked for slashes. -/
def base : List UInt8 := if a.path.take 5 = user then a.path.drop 5 else a.path

/-- `shortname` in the end, without one leading `'_'`. -/
def shortname : List UInt8 := if a.base.head? = some 95 then a.base.drop 1 else a.base

/-- The bytes of the file. -/
def bytes : List UInt8 := (a.file.getD []).flatten

end Arg

/-- The bytes of a directory entry. -/
def dirent (inum : ℕ) (name : List UInt8) : List UInt8 :=
  (List.range direntSize).map (direntBytes inum name)

/-- The loop over the chunks of a file. -/
def appendAll (inum : ℕ) : List (List UInt8) → Mk Unit
  | [] => pure ()
  | c :: cs => do
    iappend inum c
    appendAll inum cs

/-- One turn of the loop over the arguments. -/
def addFile (rootino : ℕ) (a : Arg) : Mk Unit :=
  if slash ∈ a.base then fail .slash
  else
    match a.file with
    | none => fail (.open a.path)
    | some cs =>
      if dirSiz < a.shortname.length then fail .nameLength
      else do
        let inum ← ialloc tFile
        iappend rootino (dirent inum a.shortname)
        appendAll inum cs

/-- The loop over the arguments. -/
def addFiles (rootino : ℕ) : List Arg → Mk Unit
  | [] => pure ()
  | a :: as => do
    addFile rootino a
    addFiles rootino as

/-- The end of `main`: the size of the root directory, and the bitmap. -/
def finish (rootino : ℕ) : Mk Unit := do
  let din ← rinode rootino
  winode rootino { din with size := (din.size / UInt32.ofNat bsize + 1) * UInt32.ofNat bsize }
  let s ← get
  balloc s.freeblock

/-- `main` -/
def main (args : List Arg) : Mk Unit := do
  loop (fun i => wsect i zeroes) 0 fssize
  wsect 1 superBlock
  let rootino ← ialloc tDir
  if rootino = rootIno then do
    iappend rootino (dirent rootino dot)
    iappend rootino (dirent rootino dotdot)
    addFiles rootino args
    finish rootino
  else fail .rootino

end Mkfs

end TrinityXv6
