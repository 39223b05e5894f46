import TrinityXv6.Param

/-!
# The layout of the disk: `kernel/fs.h`

The superblock, the inodes and the bitmap as they lie in the blocks of the disk, and the typed view
`Store` of those blocks: the bitmap as a function of block numbers, the inodes as a function of
inode numbers, and the blocks of the data area.

The code works on bytes. Everything above this module is stated about `Store`, and the lemmas
`Store.of_putBit`, `Store.of_putDinode` and `Store.of_update` say what the three kinds of writes
the code makes mean there. They hold because a sane superblock keeps inode blocks, bitmap blocks
and data blocks apart.
-/

namespace TrinityXv6

namespace Fs

open Function (update update_self update_of_ne)
open Bytes

/-- `NDIRECT`: direct block addresses of an inode. -/
abbrev ndirect : ℕ := 12

/-- `NINDIRECT`: block addresses in an indirect block. -/
abbrev nindirect : ℕ := 256

/-- `MAXFILE`: blocks of the largest file. -/
abbrev maxFile : ℕ := ndirect + nindirect

/-- `NLINK_MAX` -/
abbrev nlinkMax : Int16 := 32767

/-- `IPB`: inodes in a block. -/
abbrev ipb : ℕ := 16

/-- `BPB`: bitmap bits in a block. -/
abbrev bpb : ℕ := 8192

/-- `DIRSIZ`: bytes of a name in a directory entry. -/
abbrev dirSiz : ℕ := 14

/-- `ROOTINO`: the inode of the root directory. -/
abbrev rootIno : ℕ := 1

/-- `T_DIR` -/
abbrev tDir : Int16 := 1

/-- `T_FILE` -/
abbrev tFile : Int16 := 2

/-- `T_DEVICE` -/
abbrev tDevice : Int16 := 3

theorem ndirect_eq : ndirect = 12 := rfl

theorem nindirect_eq : nindirect = 256 := rfl

theorem ipb_eq : ipb = 16 := rfl

/-! ## The superblock -/

/-- `struct superblock`, as far as the file system reads it. -/
structure Superblock where
  size : ℕ
  nblocks : ℕ
  ninodes : ℕ
  inodestart : ℕ
  bmapstart : ℕ

namespace Superblock

variable (sb : Superblock)

/-- `IBLOCK`: the block of an inode. -/
def iblock (i : ℕ) : ℕ := i / ipb + sb.inodestart

/-- `BBLOCK`: the block of a bitmap bit. -/
def bblock (b : ℕ) : ℕ := b / bpb + sb.bmapstart

/-- The number of metadata blocks, which come first on the disk. -/
def nmeta : ℕ := sb.size - sb.nblocks

/-- Inode blocks, bitmap blocks and data blocks do not overlap, in that order, and block numbers
fit an `int`. -/
structure Sane : Prop where
  inodes : ∀ i < sb.ninodes, sb.iblock i < sb.bmapstart
  bitmap : ∀ b < sb.size, sb.bblock b < sb.nmeta
  size_le : sb.size ≤ 2 ^ 31
  size_pos : 0 < sb.size

variable {sb}

theorem Sane.iblock_lt_bblock (h : sb.Sane) {i : ℕ} (hi : i < sb.ninodes) (b : ℕ) :
    sb.iblock i < sb.bblock b :=
  (h.inodes i hi).trans_le (Nat.le_add_left _ _)

theorem Sane.iblock_lt_nmeta (h : sb.Sane) {i : ℕ} (hi : i < sb.ninodes) : sb.iblock i < sb.nmeta :=
  (h.iblock_lt_bblock hi 0).trans (h.bitmap 0 h.size_pos)

end Superblock

/-! ## Inodes -/

/-- `struct dinode` -/
@[ext]
structure Dinode where
  type : Int16
  major : Int16
  minor : Int16
  nlink : Int16
  size : UInt32
  addrs : Fin (ndirect + 1) → UInt32

/-- An inode of zeros. -/
def Dinode.zero : Dinode := ⟨0, 0, 0, 0, 0, fun _ => 0⟩

/-- The inode at index `k` of an inode block. -/
def getDinode (d : Blk) (k : ℕ) : Dinode where
  type := getI16 d (64 * k)
  major := getI16 d (64 * k + 2)
  minor := getI16 d (64 * k + 4)
  nlink := getI16 d (64 * k + 6)
  size := getU32 d (64 * k + 8)
  addrs j := getU32 d (64 * k + 12 + 4 * j.val)

/-- Byte `p` of `addrs`. -/
def Dinode.addrByte (x : Dinode) (p : ℕ) : UInt8 :=
  if h : p / 4 < ndirect + 1 then byteOf (x.addrs ⟨p / 4, h⟩).toNat (p % 4) else 0

/-- Store an inode at index `k` of an inode block, field by field. -/
def putDinode (d : Blk) (k : ℕ) (x : Dinode) : Blk :=
  let d := putI16 d (64 * k) x.type
  let d := putI16 d (64 * k + 2) x.major
  let d := putI16 d (64 * k + 4) x.minor
  let d := putI16 d (64 * k + 6) x.nlink
  let d := putU32 d (64 * k + 8) x.size
  splice d (64 * k + 12) (4 * (ndirect + 1)) x.addrByte

/-- Store only the type of an inode. -/
def putType (d : Blk) (k : ℕ) (x : Int16) : Blk := putI16 d (64 * k) x

variable {d : Blk} {k : ℕ}

theorem byte_putDinode_of_not_mem {i : ℕ} {x : Dinode} (h : i < 64 * k ∨ 64 * k + 64 ≤ i) :
    byte (putDinode d k x) i = byte d i := by
  have := ndirect_eq
  simp only [putDinode, putI16, putU32, putLE]
  iterate 6 rw [byte_splice_of_not_mem (by omega)]

/-- Two blocks that agree on the bytes of an inode hold the same inode. -/
theorem getDinode_congr {e : Blk} (h : ∀ i, 64 * k ≤ i → i < 64 * k + 64 → byte d i = byte e i) :
    getDinode d k = getDinode e k := by
  have := ndirect_eq
  refine Dinode.ext ?_ ?_ ?_ ?_ ?_ (funext fun j => ?_)
  · exact getI16_congr fun i hi hi' => h i (by omega) (by omega)
  · exact getI16_congr fun i hi hi' => h i (by omega) (by omega)
  · exact getI16_congr fun i hi hi' => h i (by omega) (by omega)
  · exact getI16_congr fun i hi hi' => h i (by omega) (by omega)
  · exact getU32_congr fun i hi hi' => h i (by omega) (by omega)
  · exact getU32_congr fun i hi hi' => h i (by omega) (by omega)

theorem getDinode_putDinode_of_ne {j : ℕ} (x : Dinode) (h : j ≠ k) :
    getDinode (putDinode d k x) j = getDinode d j :=
  getDinode_congr fun i hi hi' => byte_putDinode_of_not_mem (by omega)

theorem getDinode_putDinode_self (x : Dinode) (hk : k < ipb) :
    getDinode (putDinode d k x) k = x := by
  have := ndirect_eq
  have := ipb_eq
  have := bsize_eq
  -- a field is not touched by the writes of the fields after it
  refine Dinode.ext ?_ ?_ ?_ ?_ ?_ (funext fun j => ?_)
  · simp (disch := omega) only [getDinode, putDinode, getI16_splice_of_disjoint,
      getI16_putU32_of_disjoint, getI16_putI16_of_disjoint, getI16_putI16_self]
  · simp (disch := omega) only [getDinode, putDinode, getI16_splice_of_disjoint,
      getI16_putU32_of_disjoint, getI16_putI16_of_disjoint, getI16_putI16_self]
  · simp (disch := omega) only [getDinode, putDinode, getI16_splice_of_disjoint,
      getI16_putU32_of_disjoint, getI16_putI16_of_disjoint, getI16_putI16_self]
  · simp (disch := omega) only [getDinode, putDinode, getI16_splice_of_disjoint,
      getI16_putU32_of_disjoint, getI16_putI16_self]
  · simp (disch := omega) only [getDinode, putDinode, getU32_splice_of_disjoint, getU32_putU32_self]
  · refine getU32_of_byteOf fun p hp => ?_
    rw [putDinode, byte_splice_of_mem (by omega) (by omega) (by omega)]
    have hq : (64 * k + 12 + 4 * j.val + p - (64 * k + 12)) = 4 * j.val + p := by omega
    have hdiv : (4 * j.val + p) / 4 = j.val := by omega
    have hmod : (4 * j.val + p) % 4 = p := by omega
    simp only [hq, Dinode.addrByte, hdiv, hmod, j.isLt, dif_pos]

theorem getDinode_zero (k : ℕ) : getDinode (fun _ => 0) k = .zero :=
  Dinode.ext (getI16_zero _) (getI16_zero _) (getI16_zero _)
    (getI16_zero _) (getU32_zero _) (funext fun _ => getU32_zero _)

/-! ## The typed view -/

/-- The disk as the file system means it: the bitmap, the inodes, and the data blocks. -/
@[ext]
structure Store where
  bit : ℕ → Bool
  din : ℕ → Dinode
  data : ℕ → Blk

namespace Store

/-- The typed view of the blocks of a disk. -/
def of (sb : Superblock) (m : ℕ → Blk) : Store where
  bit b := if b < sb.size then Bytes.bit (m (sb.bblock b)) (b % bpb) else false
  din i := if i < sb.ninodes then getDinode (m (sb.iblock i)) (i % ipb) else .zero
  data a := if sb.nmeta ≤ a then m a else fun _ => 0

variable {sb : Superblock} {m : ℕ → Blk} {a b i : ℕ}

theorem mod_eq_iff_of_div_eq {c k : ℕ} (h : c / k = b / k) : c % k = b % k ↔ c = b := by
  constructor
  · intro hmod
    rw [← Nat.div_add_mod c k, h, hmod, Nat.div_add_mod]
  · rintro rfl
    rfl

/-- **A write to the bitmap.** -/
theorem of_putBit (hsb : sb.Sane) (hb : b < sb.size) (v : Bool) :
    of sb (update m (sb.bblock b) (putBit (m (sb.bblock b)) (b % bpb) v)) =
      { of sb m with bit := update (of sb m).bit b v } := by
  have hbit : b % bpb < 8 * bsize := Nat.mod_lt b (by decide)
  refine Store.ext (funext fun c => ?_) (funext fun i => ?_) (funext fun a => ?_)
  · simp only [of]
    by_cases hc : c < sb.size
    · by_cases hblk : sb.bblock c = sb.bblock b
      · have hiff : c % bpb = b % bpb ↔ c = b :=
          mod_eq_iff_of_div_eq (by simpa [Superblock.bblock] using hblk)
        rw [if_pos hc, hblk, update_self, bit_putBit hbit]
        by_cases hcb : c = b
        · subst hcb; simp
        · rw [update_of_ne hcb, if_neg (hiff.not.mpr hcb), if_pos hc, hblk]
      · have hcb : c ≠ b := by
          rintro rfl
          exact hblk rfl
        rw [if_pos hc, update_of_ne hblk, update_of_ne hcb, if_pos hc]
    · have hcb : c ≠ b := by
        rintro rfl
        exact hc hb
      rw [if_neg hc, update_of_ne hcb, if_neg hc]
  · simp only [of]
    by_cases hi : i < sb.ninodes
    · rw [if_pos hi, if_pos hi, update_of_ne (hsb.iblock_lt_bblock hi b).ne]
    · rw [if_neg hi, if_neg hi]
  · simp only [of]
    by_cases ha : sb.nmeta ≤ a
    · have hlt := hsb.bitmap b hb
      rw [if_pos ha, if_pos ha, update_of_ne (by omega)]
    · rw [if_neg ha, if_neg ha]

/-- A write to an inode block that changes one inode. -/
theorem of_inode (hsb : sb.Sane) (hi : i < sb.ninodes) {x : Dinode}
    (hself : getDinode d (i % ipb) = x)
    (hother : ∀ k, k ≠ i % ipb → getDinode d k = getDinode (m (sb.iblock i)) k) :
    of sb (update m (sb.iblock i) d) = { of sb m with din := update (of sb m).din i x } := by
  refine Store.ext (funext fun c => ?_) (funext fun j => ?_) (funext fun a => ?_)
  · simp only [of]
    rw [update_of_ne (hsb.iblock_lt_bblock hi c).ne']
  · simp only [of]
    by_cases hj : j < sb.ninodes
    · by_cases hblk : sb.iblock j = sb.iblock i
      · have hiff : j % ipb = i % ipb ↔ j = i :=
          mod_eq_iff_of_div_eq (by simpa [Superblock.iblock] using hblk)
        rw [if_pos hj, hblk, update_self]
        by_cases hji : j = i
        · subst hji
          rw [update_self, hself]
        · rw [update_of_ne hji, if_pos hj, hother _ (hiff.not.mpr hji), hblk]
      · have hji : j ≠ i := by
          rintro rfl
          exact hblk rfl
        rw [if_pos hj, update_of_ne hblk, update_of_ne hji, if_pos hj]
    · have hji : j ≠ i := by
        rintro rfl
        exact hj hi
      rw [if_neg hj, update_of_ne hji, if_neg hj]
  · simp only [of]
    by_cases ha : sb.nmeta ≤ a
    · have hlt := hsb.iblock_lt_nmeta hi
      rw [if_pos ha, if_pos ha, update_of_ne (by omega)]
    · rw [if_neg ha, if_neg ha]

/-- **A write of an inode.** -/
theorem of_putDinode (hsb : sb.Sane) (hi : i < sb.ninodes) (x : Dinode) :
    of sb (update m (sb.iblock i) (putDinode (m (sb.iblock i)) (i % ipb) x)) =
      { of sb m with din := update (of sb m).din i x } :=
  of_inode hsb hi (getDinode_putDinode_self x (Nat.mod_lt _ (by decide))) fun _ hk =>
    getDinode_putDinode_of_ne x hk

/-- **A write to a data block.** -/
theorem of_update (hsb : sb.Sane) (ha : sb.nmeta ≤ a) (d : Blk) : of sb (update m a d) =
      { of sb m with data := update (of sb m).data a d } := by
  refine Store.ext (funext fun c => ?_) (funext fun j => ?_) (funext fun a' => ?_)
  · simp only [of]
    by_cases hc : c < sb.size
    · have hlt := hsb.bitmap c hc
      rw [if_pos hc, if_pos hc, update_of_ne (by omega)]
    · rw [if_neg hc, if_neg hc]
  · simp only [of]
    by_cases hj : j < sb.ninodes
    · have hlt := hsb.iblock_lt_nmeta hj
      rw [if_pos hj, if_pos hj, update_of_ne (by omega)]
    · rw [if_neg hj, if_neg hj]
  · simp only [of]
    by_cases haa : a' = a
    · subst haa
      rw [update_self, update_self, if_pos ha]
    · rw [update_of_ne haa, update_of_ne haa]

theorem of_bit (hb : b < sb.size) :
    (of sb m).bit b = Bytes.bit (m (sb.bblock b)) (b % bpb) := if_pos hb

theorem of_din (hi : i < sb.ninodes) :
    (of sb m).din i = getDinode (m (sb.iblock i)) (i % ipb) := if_pos hi

theorem of_data (ha : sb.nmeta ≤ a) : (of sb m).data a = m a := if_pos ha

theorem of_bit_of_not_lt (hb : ¬ b < sb.size) : (of sb m).bit b = false := if_neg hb

theorem of_din_of_not_lt (hi : ¬ i < sb.ninodes) : (of sb m).din i = .zero := if_neg hi

theorem of_data_of_not_le (ha : ¬ sb.nmeta ≤ a) : (of sb m).data a = fun _ => 0 :=
  if_neg ha

end Store

end Fs

end TrinityXv6
