import TrinityXv6.Lib.Bytes

/-!
# Kernel parameters

The constants of `kernel/param.h` and `kernel/fs.h` that the model uses, under the source's names
in lower camel case.
-/

namespace TrinityXv6

/-- `MAXOPBLOCKS`: blocks one operation may write. -/
abbrev maxOpBlocks : ℕ := 10

/-- `LOGBLOCKS`: data blocks of the on-disk log. -/
abbrev logBlocks : ℕ := maxOpBlocks * 3

/-- `NBUF`: buffers of the block cache. -/
abbrev nbuf : ℕ := maxOpBlocks * 3

/-- `ROOTDEV`: the device of the root file system, the only one ever read. -/
abbrev rootDev : ℕ := 1

/-- `BSIZE`: bytes of a block. -/
abbrev bsize : ℕ := 1024

theorem logBlocks_eq : logBlocks = 30 := rfl

theorem nbuf_eq : nbuf = 30 := rfl

theorem bsize_eq : bsize = 1024 := rfl

/-- The contents of one disk block. -/
abbrev Blk := Bytes.Block bsize

/-- Numerals for buffers. -/
instance neZero_nbuf : NeZero nbuf := ⟨by decide⟩

/-- Numerals for two processes. -/
instance neZero_two : NeZero (2 : ℕ) := ⟨by decide⟩

/-- Numerals for three processes. -/
instance neZero_three : NeZero (3 : ℕ) := ⟨by decide⟩

end TrinityXv6
