import TrinityXv6.Lib.Command
import TrinityXv6.Lib.Radix
import TrinityXv6.Param

/-!
# Physical pages and page tables

Physical memory is handed out in pages, which are numbered. `kmem.freelist` is the list of free
pages; `kfree` and `kalloc` are those of `kernel/kalloc.c`. What a page contains is modelled only
where it is a page table: a page table is a tree of pages with 512 entries each, as `kernel/riscv.h`
lays them out, with the root at level 2.

A leaf has `PTE_V` and `PTE_R` set: every caller of `mappages` passes `PTE_R`. An entry above level
0 has only `PTE_V`, so it is a node or missing. That a page is a node of one tree and not of two is
not built into this: the numbers of the pages could coincide, and the results say that they do not.

Sizes and addresses are natural numbers; where the source relies on, or could run into, arithmetic
modulo `2 ^ 64`, the model takes remainders.
-/

namespace TrinityXv6

namespace Vm

open Command

/-- `PGSIZE` -/
abbrev pgsize : ℕ := 4096

/-- `MAXVA` -/
abbrev maxva : ℕ := 2 ^ 38

/-- `TRAMPOLINE` -/
abbrev trampoline : ℕ := maxva - pgsize

/-- `TRAPFRAME` -/
abbrev trapframe : ℕ := trampoline - pgsize

/-- `KERNBASE` -/
abbrev kernbase : ℕ := 0x80000000

/-- `PHYSTOP` -/
abbrev phystop : ℕ := kernbase + 128 * 1024 * 1024

/-- `PGROUNDUP` -/
def pgroundup (sz : ℕ) : ℕ := (sz + (pgsize - 1)) % 2 ^ 64 / pgsize * pgsize

/-- `PGROUNDDOWN` -/
def pgrounddown (a : ℕ) : ℕ := a / pgsize * pgsize

/-- Why the kernel stops. -/
inductive Panic where
  /-- `panic("walk")` -/
  | walk
  /-- `panic("mappages: va not aligned")` -/
  | mappagesVa
  /-- `panic("mappages: size not aligned")` -/
  | mappagesAlign
  /-- `panic("mappages: size")` -/
  | mappagesSize
  /-- `panic("mappages: remap")` -/
  | remap
  /-- `panic("uvmunmap: not aligned")` -/
  | uvmunmap
  /-- `panic("freewalk: leaf")` -/
  | freewalk
  /-- `panic("uvmclear")` -/
  | uvmclear
  /-- `panic("loadseg: address should exist")` -/
  | loadseg
  /-- `panic("kfree")` -/
  | kfree
  /-- `panic("filedup")` -/
  | filedup
  /-- `panic("fileclose")` -/
  | fileclose
  /-- `panic("init exiting")` -/
  | initExiting
  /-- A pointer is used that is zero or dangling. -/
  | fault
  deriving DecidableEq, Repr

/-- The free pages. `lo` and `hi` are the first page after the kernel and the first one after
`PHYSTOP`, and `tramp` is the page of the trampoline code, which is part of the kernel. `deny` says
of the next calls of `kalloc` which of them fail although pages are left.

`used` and `clean` are not part of the kernel. `used` are the pages that `kalloc` has handed out and
`kfree` has not taken back, and `clean` is whether every page was used once, and not free, when
`kfree` was applied to it. -/
structure Kmem where
  lo : ℕ
  hi : ℕ
  tramp : ℕ
  free : List ℕ
  deny : List Bool
  used : List ℕ
  clean : Bool

/-- Code that allocates. -/
abbrev VM := Cmd Kmem Panic

/-- `kalloc` -/
def kalloc : VM (Option ℕ) := fun k =>
  if k.deny.head? = some true then .ok (none, { k with deny := k.deny.tail })
  else match k.free with
    | [] => .ok (none, { k with deny := k.deny.tail })
    | x :: free =>
      .ok (some x, { k with free := free, deny := k.deny.tail, used := x :: k.used })

/-- `kfree` -/
def kfree (x : ℕ) : VM Unit := fun k =>
  if x < k.lo ∨ k.hi ≤ x then .error .kfree
  else .ok ((), { k with
    free := x :: k.free
    used := k.used.erase x
    clean := k.clean && !k.free.contains x && k.used.count x = 1 })

/-- The bits of a leaf that `mappages` is given: `PTE_W`, `PTE_X` and `PTE_U`. -/
structure Perm where
  w : Bool
  x : Bool
  u : Bool
  deriving DecidableEq, Repr

/-- A leaf: the physical page, and the permissions. -/
structure Leaf where
  ppn : ℕ
  perm : Perm
  deriving DecidableEq, Repr

instance neZero_entries : NeZero (512 : ℕ) := ⟨by decide⟩

/-- `pagetable_t` -/
abbrev Table := Radix.Tree 512 Leaf 2

namespace Table

/-- `*pte` at an address, if it has a leaf. -/
def pte (t : Table) (va : ℕ) : Option Leaf := Radix.get 2 t (va / pgsize)

/-- `*pte = …` -/
def setPte (t : Table) (va : ℕ) (o : Option Leaf) : Table := Radix.set 2 t (va / pgsize) o

end Table

end Vm

end TrinityXv6
