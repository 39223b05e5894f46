import TrinityXv6.Fs.Inode

/-!
# Directories and paths: the rest of `kernel/fs.c`

A directory is a file of entries of 16 bytes: an inode number of two bytes, zero in a free entry,
and a name of up to 14 bytes, padded with zeros. A path is a string of bytes that ends at its first
zero.
-/

namespace TrinityXv6

namespace Fs

open Threads Command

/-- `sizeof(struct dirent)` -/
abbrev direntSize : ℕ := 16

/-- A name, as `strncmp` and `strncpy` see it: at most `DIRSIZ` bytes, up to the first zero. -/
def cstr (name : List UInt8) : List UInt8 := (name.take dirSiz).takeWhile (· ≠ 0)

/-- `namecmp`, which is zero for equal names. -/
def namecmp (s t : List UInt8) : Bool := cstr s = cstr t

/-- The inode number of an entry. -/
def direntInum (de : List UInt8) : ℕ := (de.getD 0 0).toNat + 256 * (de.getD 1 0).toNat

/-- The name of an entry, with its padding. -/
def direntName (de : List UInt8) : List UInt8 := de.drop 2

/-- The bytes of an entry, after `strncpy` of its name. -/
def direntBytes (inum : ℕ) (name : List UInt8) (p : ℕ) : UInt8 :=
  if p < 2 then Bytes.byteOf inum p else (cstr name).getD (p - 2) 0

/-- The name `"."` -/
def dot : List UInt8 := [46]

/-- The name `".."` -/
def dotdot : List UInt8 := [46, 46]

variable {τ : Type} [DecidableEq τ] (sb : Superblock) (t : τ)

/-- Read the entry at an offset of a directory, or panic. -/
def readDirent (e : Halt) (dp : Slot) (off : ℕ) : F τ (List UInt8) := do
  let r ← readi sb t dp (fun _ _ => true) off direntSize
  if r.1 = direntSize then pure r.2 else fail e

/-- The loop of `dirlookup`. -/
def dirlookupFrom (dp : Slot) (name : List UInt8) : (fuel off : ℕ) → F τ (Option (Slot × ℕ))
  | 0, _ => pure none
  | fuel + 1, off => do
    let x ← inode dp
    if off < x.din.size.toNat then do
      let de ← readDirent sb t .dirlookupRead dp off
      if direntInum de = 0 then dirlookupFrom dp name fuel (off + direntSize)
      else if namecmp name (direntName de) then do
        let ip ← iget (direntInum de)
        pure (some (ip, off))
      else dirlookupFrom dp name fuel (off + direntSize)
    else pure none

/-- `dirlookup`: the inode and the offset of its entry. -/
def dirlookup (dp : Slot) (name : List UInt8) : F τ (Option (Slot × ℕ)) := do
  let x ← inode dp
  if x.din.type = tDir then dirlookupFrom sb t dp name (x.din.size.toNat / direntSize + 1) 0
  else fail .dirlookupNotDir

/-- The loop of `dirlink`: the offset of the first free entry, or of the end. -/
def dirlinkSlot (dp : Slot) : (fuel off : ℕ) → F τ ℕ
  | 0, off => pure off
  | fuel + 1, off => do
    let x ← inode dp
    if off < x.din.size.toNat then do
      let de ← readDirent sb t .dirlinkRead dp off
      if direntInum de = 0 then pure off else dirlinkSlot dp fuel (off + direntSize)
    else pure off

/-- `dirlink` after its lookup found nothing. -/
def dirlinkWrite (dp : Slot) (name : List UInt8) (inum : ℕ) : F τ ℤ := do
  let x ← inode dp
  let off ← dirlinkSlot sb t dp (x.din.size.toNat / direntSize + 1) 0
  let r ← writei sb t dp (.kernel (direntBytes inum name)) off direntSize
  if r = direntSize then pure 0 else pure (-1)

/-- `dirlink`, up to the release of an inode that its lookup found. -/
def dirlinkTry (dp : Slot) (name : List UInt8) (inum : ℕ) : F τ (Slot ⊕ ℤ) := do
  match ← dirlookup sb t dp name with
  | some r => pure (.inl r.1)
  | none => do
    let r ← dirlinkWrite sb t dp name inum
    pure (.inr r)

/-- `dirlink` -/
def dirlink (dp : Slot) (name : List UInt8) (inum : ℕ) : M τ ℤ := do
  match ← (.cmd fun t => dirlinkTry sb t dp name inum : M τ (Slot ⊕ ℤ)) with
  | .inl ip => do
    iput sb ip
    pure (-1)
  | .inr r => pure r

/-! ## Paths -/

/-- The byte `'/'` -/
def slash : UInt8 := 47

/-- `skipelem`: the rest of the path and the element before it. -/
def skipelem (path : List UInt8) : Option (List UInt8 × List UInt8) :=
  match path.dropWhile (· = slash) with
  | [] => none
  | c :: cs => some (((c :: cs).dropWhile (· ≠ slash)).dropWhile (· = slash),
      ((c :: cs).takeWhile (· ≠ slash)).take dirSiz)

/-- The loop of `namex`. The element is part of the result for a parent. -/
def namexFrom (parent : Bool) : (fuel : ℕ) → (ip : Slot) → (path : List UInt8) →
    M τ (Option (Slot × List UInt8))
  | 0, _, _ => pure none
  | fuel + 1, ip, path =>
    match skipelem path with
    | none =>
      if parent then do
        iput sb ip
        pure none
      else pure (some (ip, []))
    | some (path, name) => do
      ilock sb ip
      let x ← din ip
      if x.type ≠ tDir then do
        iunlockput sb ip
        pure none
      else if x.nlink = 0 then do
        iunlockput sb ip
        pure none
      else if parent ∧ path = [] then do
        iunlock ip
        pure (some (ip, name))
      else do
        match ← (.cmd fun t => dirlookup sb t ip name : M τ (Option (Slot × ℕ))) with
        | none => do
          iunlockput sb ip
          pure none
        | some (next, _) => do
          iunlockput sb ip
          namexFrom parent fuel next path

/-- Where `namex` starts: the root or the current directory. -/
def namexStart (path : List UInt8) : F τ Slot :=
  if path.head? = some slash then iget rootIno
  else fun s =>
    match (s.proc t).cwd with
    | some ip => idup ip s
    | none => .error .trap

/-- `namex` -/
def namex (parent : Bool) (path : List UInt8) : M τ (Option (Slot × List UInt8)) := do
  let ip ← (.cmd fun t => namexStart t path : M τ Slot)
  namexFrom sb parent (path.length + 1) ip path

/-- `namei` -/
def namei (path : List UInt8) : M τ (Option Slot) := do
  let r ← namex sb false path
  pure (r.map Prod.fst)

/-- `nameiparent` -/
def nameiparent (path : List UInt8) : M τ (Option (Slot × List UInt8)) := namex sb true path

end Fs

end TrinityXv6
