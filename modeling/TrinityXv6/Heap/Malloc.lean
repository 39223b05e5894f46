import Mathlib.Logic.Relation
import TrinityXv6.Lib.Extents
import TrinityXv6.Lib.Linked

/-!
# `malloc` and `free`

The allocator of user programs. Free blocks are a ring of headers in the order of their addresses,
which starts at the static header `base`; `freep` points to some header of the ring, and searches
start there. A block is a header and the memory after it, in units of the size of a header.

Memory is what a header has at each address: where the program writes, headers are never read.
`sbrk` is the environment's. It fails, or it returns memory above all memory there was so far,
perhaps after a gap. The search loops are on `fuel`, and a search whose fuel is used up gives
`none`.
-/

namespace TrinityXv6

namespace Heap

open Extents

/-- `union header`. -/
structure Header where
  ptr : ℕ
  size : UInt32
deriving DecidableEq

/-- `sizeof(Header)`. -/
abbrev unit : ℕ := 16

/-- The static data of a program: where `base` is, and where the heap may start. -/
structure Layout where
  base : ℕ
  stop : ℕ
  base_pos : 0 < base
  base_le : base + unit ≤ stop

/-- Memory, with the end of it. Besides, what `sbrk` has returned and what the program has. -/
structure State where
  hdr : ℕ → Header
  freep : ℕ
  stop : ℕ
  chunks : List Extent
  live : List Extent

namespace State

variable (s : State)

def ptr (a : ℕ) : ℕ := (s.hdr a).ptr

def size (a : ℕ) : UInt32 := (s.hdr a).size

/-- Write a header. -/
def set (a : ℕ) (h : Header) : State := { s with hdr := Function.update s.hdr a h }

/-- The block whose header is at an address. -/
def block (a : ℕ) : Extent := ⟨a, unit * (s.size a).toNat⟩

/-! ## `free` -/

/-- The loop of `free`: from `p` on, look for the header before `bp`. -/
def findPrev (bp : ℕ) : (fuel p : ℕ) → Option ℕ
  | 0, _ => none
  | fuel + 1, p =>
    if bp > p ∧ bp < s.ptr p then some p
    else if p ≥ s.ptr p ∧ (bp > p ∨ bp < s.ptr p) then some p
    else findPrev bp fuel (s.ptr p)

/-- Link `x` to the header `q`, or join both blocks if they touch. -/
def join (x q : ℕ) : State :=
  if x + unit * (s.size x).toNat = q then s.set x ⟨s.ptr q, s.size x + s.size q⟩
  else s.set x ⟨q, s.size x⟩

/-- What `free` does once it has found the place: join to the upper neighbour, then to the lower. -/
def linkIn (bp p : ℕ) : State := { (s.join bp (s.ptr p)).join p bp with freep := p }

def free (fuel ap : ℕ) : Option State :=
  (s.findPrev (ap - unit) fuel s.freep).map (s.linkIn (ap - unit))

/-! ## `malloc` -/

/-- `morecore`: `gap` is the answer of `sbrk`, how far above the end of memory the new memory is. -/
def morecore (fuel : ℕ) (nu : UInt32) (gap : Option ℕ) : Option (ℕ × State) :=
  let nu := if nu < 4096 then 4096 else nu
  match gap with
  | none => some (0, s)
  | some g =>
    let p := s.stop + g
    let s : State := { s with
      stop := p + nu.toNat * unit
      chunks := ⟨p, nu.toNat * unit⟩ :: s.chunks }
    let s := s.set p ⟨s.ptr p, nu⟩
    (s.free fuel (p + unit)).map fun s => (s.freep, s)

/-- Take `nunits` from the block at `p`, which follows `prevp`: all of it, or its end. -/
def take (nunits : UInt32) (prevp p : ℕ) : ℕ × State :=
  if s.size p = nunits then
    (p + unit, { s.set prevp ⟨s.ptr p, s.size prevp⟩ with freep := prevp })
  else
    let rest := s.size p - nunits
    let q := p + unit * rest.toNat
    let s := s.set p ⟨s.ptr p, rest⟩
    (q + unit, { s.set q ⟨s.ptr q, nunits⟩ with freep := prevp })

/-- The loop of `malloc`; `gaps` are the answers of `sbrk`, as long as there are any. -/
def mallocFrom (nunits : UInt32) : ℕ → List (Option ℕ) → ℕ → ℕ → State → Option (ℕ × State)
  | 0, _, _, _, _ => none
  | fuel + 1, gaps, prevp, p, s =>
    if s.size p ≥ nunits then some (s.take nunits prevp p)
    else if p = s.freep then
      match s.morecore fuel nunits gaps.head?.join with
      | none => none
      | some (p, s) =>
        if p = 0 then some (0, s) else mallocFrom nunits fuel gaps.tail p (s.ptr p) s
    else mallocFrom nunits fuel gaps p (s.ptr p) s

/-- `(nbytes + sizeof(Header) - 1) / sizeof(Header) + 1`. -/
def nunits (nbytes : UInt32) : ℕ := (nbytes.toNat + unit - 1) / unit + 1

/-- The ring of `base` alone, if there is none yet. -/
def init (base : ℕ) : State :=
  if s.freep = 0 then { s.set base ⟨base, 0⟩ with freep := base } else s

def malloc (base fuel : ℕ) (nbytes : UInt32) (gaps : List (Option ℕ)) : Option (ℕ × State) :=
  let s := s.init base
  mallocFrom (UInt32.ofNat (nunits nbytes)) fuel gaps s.freep (s.ptr s.freep) s

/-! ## Programs -/

/-- All memory that `sbrk` has returned. -/
def obtained : ℕ := total s.chunks

/-- The block at `p` belongs to the program, unless `p` is `0`. -/
def got (p : ℕ) : State := if p = 0 then s else { s with live := s.block (p - unit) :: s.live }

/-- The block does not belong to the program any more. -/
def gone (b : Extent) : State := { s with live := s.live.erase b }

end State

/-- A program before it has called `malloc`, with anything in its memory. -/
def start (L : Layout) (hdr : ℕ → Header) : State := ⟨hdr, 0, L.stop, [], []⟩

/-- A step of a program. It asks for memory of a size whose units fit in an `int`, gives back a
block that it has, or writes to the memory of such a block. Memory stays within `room`. -/
inductive Step (L : Layout) (room : ℕ → Prop) : State → State → Prop
  | malloc {s s' : State} {fuel p : ℕ} {nbytes : UInt32} {gaps : List (Option ℕ)}
      (hn : State.nunits nbytes * unit < 2 ^ 31)
      (h : s.malloc L.base fuel nbytes gaps = some (p, s')) (hroom : room s'.obtained) :
      Step L room s (s'.got p)
  | free {s s' : State} {fuel : ℕ} {b : Extent} (hb : b ∈ s.live)
      (h : s.free fuel (b.addr + unit) = some s') : Step L room s (s'.gone b)
  | write {s : State} {hdr : ℕ → Header}
      (h : ∀ a, hdr a ≠ s.hdr a → ∃ b ∈ s.live, b.addr < a ∧ a < b.fin) :
      Step L room s { s with hdr := hdr }

/-- What a program can reach. -/
def Reachable (L : Layout) (room : ℕ → Prop) (s : State) : Prop :=
  ∃ hdr, Relation.ReflTransGen (Step L room) (start L hdr) s

end Heap

end TrinityXv6
