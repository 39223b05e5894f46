import TrinityXv6.Vm.Process

/-!
# Memory with its contents

The functions of `kernel/vm.c`, `kernel/proc.c` and `kernel/sysproc.c` that change or copy the
memory of processes, with what pages contain. `TrinityXv6.Vm.Paging` and `TrinityXv6.Vm.Process`
have the same functions without contents; those that do not look at pages, such as `walk` and
`uvmunmap`, are taken from there.

A page contains bytes as long as it is mapped for a user. What is in a page table is its tree, and
what is in a free page is not modelled: `kalloc` overwrites it.

User programs load and store single bytes; an access to more bytes is one to each of them. An
address that the hardware does not translate is a page fault, for which `usertrap` calls `vmfault`.
-/

namespace TrinityXv6

namespace Vm

open Command

variable {n : ℕ} {α : Type}

/-- What a page contains. -/
abbrev Page := ℕ → UInt8

namespace Page

/-- A page all of whose bytes are the same. -/
def fill (b : UInt8) : Page := fun _ => b

/-- The `len` bytes from `off` on. -/
def bytes (c : Page) (off len : ℕ) : List UInt8 := (List.range len).map fun i => c (off + i)

/-- Write bytes from `off` on. -/
def write (c : Page) (off : ℕ) (src : List UInt8) : Page := fun i =>
  if off ≤ i then src.getD (i - off) (c i) else c i

end Page

/-- The free pages and the contents of all pages. `short` is not part of the kernel: it is whether
`kalloc` has failed. -/
structure Frames where
  kmem : Kmem
  data : ℕ → Page
  short : Bool

/-- Code that allocates and looks at pages. -/
abbrev FM := Cmd Frames Panic

namespace Frames

/-- Run code that does not look at pages. -/
def onFree (c : VM α) : FM α := zoom Frames.kmem (fun f k => { f with kmem := k }) c

/-- Make a note of an allocation that has failed. -/
def note (failed : Bool) : FM Unit := modify fun f => { f with short := f.short || failed }

/-- Change the contents of a page; the new contents may depend on those of other pages. -/
def setPage (x : ℕ) (c : (ℕ → Page) → Page) : FM Unit :=
  modify fun f => { f with data := Function.update f.data x (c f.data) }

/-! ## Address spaces -/

/-- `kalloc`, which fills the page with junk. -/
def kalloc : FM (Option ℕ) := do
  let x ← onFree Vm.kalloc
  note x.isNone
  match x with
  | none => pure none
  | some x => do
    setPage x fun _ => .fill 5
    pure (some x)

/-- `mappages`; it fails when a page of the page table cannot be allocated. -/
def mappages (t : Table) (va size pa : ℕ) (perm : Perm) : FM (Bool × Table) := do
  let r ← onFree (Vm.mappages t va size pa perm)
  note (!r.1)
  pure r

/-- What `uvmalloc`, `uvmcopy` and `vmfault` do for a page: allocate it, give it its contents with
`memset` or `memmove`, and map it, or else free it again. -/
def newPage (t : Table) (va : ℕ) (c : (ℕ → Page) → Page) (perm : Perm) :
    FM (Option ℕ × Table) := do
  let mem ← kalloc
  match mem with
  | none => pure (none, t)
  | some mem => do
    setPage mem c
    let r ← mappages t va pgsize mem perm
    if r.1 then pure (some mem, r.2)
    else do
      onFree (kfree mem)
      pure (none, r.2)

/-- The loop of `uvmalloc`, for the next `n` pages; `oldsz` has been rounded. -/
def uvmallocFrom (oldsz newsz : ℕ) (perm : Perm) : ℕ → Table → ℕ → FM (ℕ × Table)
  | 0, t, _ => pure (newsz, t)
  | n + 1, t, a => do
    let r ← newPage t a (fun _ => .fill 0) perm
    match r.1 with
    | none => onFree (uvmallocUndo r.2 a oldsz)
    | some _ => uvmallocFrom oldsz newsz perm n r.2 (a + pgsize)

/-- `uvmalloc` -/
def uvmalloc (t : Table) (oldsz newsz : ℕ) (w x : Bool) : FM (ℕ × Table) :=
  if newsz < oldsz then pure (oldsz, t)
  else
    uvmallocFrom (pgroundup oldsz) newsz ⟨w, x, true⟩
      ((newsz - pgroundup oldsz + (pgsize - 1)) / pgsize) t (pgroundup oldsz)

/-- The loop of `uvmcopy`, for the next `n` pages. -/
def uvmcopyFrom (old : Table) : ℕ → Table → ℕ → FM (Bool × Table)
  | 0, new, _ => pure (true, new)
  | n + 1, new, i => do
    let r ← onFree (walk old i false)
    if r.1 then
      match r.2.pte i with
      | none => uvmcopyFrom old n new (i + pgsize)
      | some l => do
        let m ← newPage new i (fun data => data l.ppn) l.perm
        match m.1 with
        | none => onFree (uvmcopyErr m.2 i)
        | some _ => uvmcopyFrom old n m.2 (i + pgsize)
    else uvmcopyFrom old n new (i + pgsize)

/-- `uvmcopy` -/
def uvmcopy (old new : Table) (sz : ℕ) : FM (Bool × Table) :=
  uvmcopyFrom old ((sz + (pgsize - 1)) / pgsize) new 0

/-- `vmfault` -/
def vmfault (t : Table) (psz va : ℕ) : FM (Option ℕ × Table) :=
  if psz ≤ va then pure (none, t)
  else do
    let mapped ← onFree (ismapped t (pgrounddown va))
    if mapped then pure (none, t)
    else newPage t (pgrounddown va) (fun _ => .fill 0) ⟨true, false, true⟩

/-- The page at `va0`, which is mapped now if it can be. -/
def userPage (t : Table) (psz va0 : ℕ) : FM (Option ℕ × Table) := do
  let pa0 ← onFree (walkaddr t va0)
  match pa0 with
  | some pa => pure (some pa, t)
  | none => vmfault t psz va0

/-- The loop of `copyout`; every turn copies at least one byte. -/
def copyoutFrom (psz : ℕ) : ℕ → Table → ℕ → List UInt8 → FM (Bool × Table)
  | 0, t, _, _ => pure (true, t)
  | turns + 1, t, dstva, src =>
    if src.length = 0 then pure (true, t)
    else if maxva ≤ pgrounddown dstva then pure (false, t)
    else do
      let r ← userPage t psz (pgrounddown dstva)
      match r.1 with
      | none => pure (false, r.2)
      | some pa0 => do
        let found ← onFree (walk r.2 (pgrounddown dstva) false)
        if found.1 then
          if ((found.2.pte (pgrounddown dstva)).map fun l => l.perm.w) = some true then do
            setPage pa0 fun data => (data pa0).write (dstva - pgrounddown dstva)
              (src.take (pgsize - (dstva - pgrounddown dstva)))
            copyoutFrom psz turns r.2 (pgrounddown dstva + pgsize)
              (src.drop (pgsize - (dstva - pgrounddown dstva)))
          else pure (false, r.2)
        else fail .fault

/-- `copyout`, of the bytes `src` -/
def copyout (t : Table) (psz dstva : ℕ) (src : List UInt8) : FM (Bool × Table) :=
  copyoutFrom psz src.length t dstva src

/-- The loop of `copyin`; every turn copies at least one byte. `dst` is what has been copied. -/
def copyinFrom (psz : ℕ) : ℕ → Table → List UInt8 → ℕ → ℕ → FM ((Bool × List UInt8) × Table)
  | 0, t, dst, _, _ => pure ((true, dst), t)
  | turns + 1, t, dst, srcva, len =>
    if len = 0 then pure ((true, dst), t)
    else do
      let r ← userPage t psz (pgrounddown srcva)
      match r.1 with
      | none => pure ((false, dst), r.2)
      | some pa0 => do
        let f ← get
        copyinFrom psz turns r.2
          (dst ++ (f.data pa0).bytes (srcva - pgrounddown srcva)
            (min len (pgsize - (srcva - pgrounddown srcva))))
          (pgrounddown srcva + pgsize) (len - (pgsize - (srcva - pgrounddown srcva)))

/-- `copyin`: whether it succeeds, and the bytes that it has copied -/
def copyin (t : Table) (psz srcva len : ℕ) : FM ((Bool × List UInt8) × Table) :=
  copyinFrom psz len t [] srcva len

/-- The bytes up to the first one that is zero, and that one. -/
def untilNul (bs : List UInt8) : List UInt8 := bs.takeWhile (· ≠ 0) ++ [0]

/-- The loop of `copyinstr`; every turn copies at least one byte. `dst` is what has been copied. -/
def copyinstrFrom (psz : ℕ) : ℕ → Table → List UInt8 → ℕ → ℕ → FM ((Bool × List UInt8) × Table)
  | 0, t, dst, _, _ => pure ((false, dst), t)
  | turns + 1, t, dst, srcva, max =>
    if max = 0 then pure ((false, dst), t)
    else do
      let r ← userPage t psz (pgrounddown srcva)
      match r.1 with
      | none => pure ((false, dst), r.2)
      | some pa0 => do
        let f ← get
        let bs := (f.data pa0).bytes (srcva - pgrounddown srcva)
          (min max (pgsize - (srcva - pgrounddown srcva)))
        if (0 : UInt8) ∈ bs then pure ((true, dst ++ untilNul bs), r.2)
        else
          copyinstrFrom psz turns r.2 (dst ++ bs) (pgrounddown srcva + pgsize)
            (max - (pgsize - (srcva - pgrounddown srcva)))

/-- `copyinstr`: whether it succeeds, and the bytes that it has copied -/
def copyinstr (t : Table) (psz srcva max : ℕ) : FM ((Bool × List UInt8) × Table) :=
  copyinstrFrom psz max t [] srcva max

/-! ## User programs -/

/-- The page that the hardware finds for a user access; every leaf has `PTE_R`. -/
def translate (write : Bool) (t : Table) (va : ℕ) : Option ℕ :=
  if va < maxva then
    (t.pte va).bind fun l => if l.perm.u && (!write || l.perm.w) then some l.ppn else none
  else none

/-- The page of a user access. After a page fault that `vmfault` has resolved the instruction is
executed again; if it faults once more, the page is mapped and `vmfault` fails. -/
def touch (write : Bool) (t : Table) (psz va : ℕ) : FM (Option ℕ × Table) :=
  match translate write t va with
  | some pa => pure (some pa, t)
  | none => do
    let r ← vmfault t psz va
    match r.1 with
    | none => pure (none, r.2)
    | some _ => pure (translate write r.2 va, r.2)

/-- A program reads a byte. -/
def load (t : Table) (psz va : ℕ) : FM (Option UInt8 × Table) := do
  let r ← touch false t psz va
  let f ← get
  pure (r.1.map fun pa => f.data pa (va % pgsize), r.2)

/-- A program writes a byte. -/
def store (t : Table) (psz va : ℕ) (b : UInt8) : FM (Bool × Table) := do
  let r ← touch true t psz va
  match r.1 with
  | none => pure (false, r.2)
  | some pa => do
    setPage pa fun data => (data pa).write (va % pgsize) [b]
    pure (true, r.2)

end Frames

/-! ## Processes -/

/-- Everything that holds pages, with their contents, and the next process number. -/
structure Machine (n : ℕ) where
  mem : Mem n
  data : ℕ → Page
  short : Bool
  nextpid : ℕ

/-- Code of the kernel and of user programs. -/
abbrev UM (n : ℕ) := Cmd (Machine n) Panic

namespace Machine

/-- The pages and their contents. -/
def frames (m : Machine n) : Frames := ⟨m.mem.kmem, m.data, m.short⟩

/-- Change the pages and their contents. -/
def setFrames (m : Machine n) (f : Frames) : Machine n :=
  { m with mem := { m.mem with kmem := f.kmem }, data := f.data, short := f.short }

/-- Run code on pages. -/
def onFrames (c : FM α) : UM n α := zoom frames setFrames c

/-- Run code that does not look at pages. -/
def onMem (c : MM n α) : UM n α := zoom Machine.mem (fun m s => { m with mem := s }) c

/-- Run code on the page table of a process, with the size of the process. -/
def onTable (p : Fin n) (c : Table → ℕ → FM (α × Table)) : UM n α := do
  let m ← get
  match (m.mem.proc p).pagetable with
  | none => fail .fault
  | some t => do
    let r ← onFrames (c t (m.mem.proc p).sz)
    onMem (Vm.update p fun v => { v with pagetable := some r.2 })
    pure r.1

/-- `growproc` by a positive number of bytes. -/
def growprocUp (p : Fin n) (bytes : ℕ) : UM n Bool := do
  let m ← get
  if Vm.trapframe < ((m.mem.proc p).sz + bytes) % 2 ^ 64 then pure false
  else do
    let sz ← onTable p fun t sz => Frames.uvmalloc t sz ((sz + bytes) % 2 ^ 64) true false
    if sz = 0 then pure false
    else do
      onMem (Vm.update p fun v => { v with sz := sz })
      pure true

/-- `growproc` -/
def growproc (p : Fin n) (k : Int32) : UM n Bool :=
  if 0 < k.toInt then growprocUp p k.toInt.toNat
  else if k.toInt < 0 then onMem (Vm.growprocDown p (-k.toInt).toNat)
  else pure true

/-- `sys_sbrk`: the old size, or `none` for -1. Lazy growth looks at no page. -/
def sysSbrk (p : Fin n) (k t : Int32) : UM n (Option ℕ) := do
  let m ← get
  let ok ← if t = 1 ∨ k.toInt < 0 then growproc p k else onMem (Vm.sysSbrk p k t)
  pure (if ok then some (m.mem.proc p).sz else none)

/-- `allocproc`: the slot and the process number. The number is taken before anything is
allocated. -/
def allocproc : UM n (Option (Fin n × ℕ)) := do
  let m ← get
  let np ← onMem Vm.allocproc
  if (List.finRange n).any fun q => (m.mem.proc q).stage = .unused then do
    modify fun m => { m with nextpid := m.nextpid + 1, short := m.short || np.isNone }
    pure (np.map fun q => (q, m.nextpid))
  else pure (np.map fun q => (q, m.nextpid))

/-- `uvmcopy(p->pagetable, np->pagetable, p->sz)` -/
def kforkCopy (p q : Fin n) : UM n Bool := do
  let m ← get
  match (m.mem.proc p).pagetable with
  | none => fail .fault
  | some old => onTable q fun new _ => Frames.uvmcopy old new (m.mem.proc p).sz

/-- What `kfork` does after the memory has been copied. -/
def kforkRest (p q : Fin n) : MM n Unit := do
  let s ← get
  Vm.update q fun v => { v with sz := (s.proc p).sz }
  kforkFiles p q (List.finRange nofile)
  Vm.update q fun v => { v with parent := some p, stage := .live }

/-- `kfork`: the number of the child, or `none` for -1 -/
def kfork (p : Fin n) : UM n (Option ℕ) := do
  let np ← allocproc
  match np with
  | none => pure none
  | some (q, pid) => do
    let ok ← kforkCopy p q
    if ok then do
      onMem (kforkRest p q)
      pure (some pid)
    else do
      onMem (Vm.freeproc q)
      pure none

/-! ## Sequences of operations -/

/-- What a process does with its memory. -/
inductive Op where
  | load (va : ℕ)
  | store (va : ℕ) (b : UInt8)
  | copyin (srcva len : ℕ)
  | copyout (dstva : ℕ) (src : List UInt8)
  | copyinstr (srcva max : ℕ)
  | sysSbrk (k t : Int32)
  | kfork
  deriving DecidableEq, Repr

/-- What comes out of it. -/
inductive Out where
  /-- The process is not alive. -/
  | idle
  /-- The byte that was loaded. -/
  | byte (b : UInt8)
  | stored
  /-- A copy: whether it succeeded, and the bytes that have reached the kernel. -/
  | copied (ok : Bool) (bytes : List UInt8)
  /-- The value of a system call; -1 is `none`. -/
  | value (x : Option ℕ)
  /-- The access was not allowed, and the process has exited. -/
  | killed
  /-- `panic("init exiting")` -/
  | initExiting
  deriving DecidableEq, Repr

/-- A process that has been killed exits. -/
def exits (init p : Fin n) : UM n Out :=
  if p = init then pure .initExiting
  else do
    let _ ← onMem (Vm.kexit init p)
    pure .killed

/-- One operation of process `p`. -/
def Op.code (init p : Fin n) : Op → UM n Out
  | .load va => do
    let x ← onTable p fun t sz => Frames.load t sz va
    match x with
    | none => exits init p
    | some b => pure (.byte b)
  | .store va b => do
    let ok ← onTable p fun t sz => Frames.store t sz va b
    if ok then pure .stored else exits init p
  | .copyin srcva len => do
    let r ← onTable p fun t sz => Frames.copyin t sz srcva len
    pure (.copied r.1 r.2)
  | .copyout dstva src => do
    let ok ← onTable p fun t sz => Frames.copyout t sz dstva src
    pure (.copied ok [])
  | .copyinstr srcva max => do
    let r ← onTable p fun t sz => Frames.copyinstr t sz srcva max
    pure (.copied r.1 r.2)
  | .sysSbrk k t => do
    let x ← Machine.sysSbrk p k t
    pure (.value x)
  | .kfork => do
    let x ← Machine.kfork p
    pure (.value x)

/-- One operation of a process that is alive; others do nothing. -/
def step (init : Fin n) (x : Fin n × Op) : UM n Out := do
  let m ← get
  if (m.mem.proc x.1).stage = .live then x.2.code init x.1 else pure .idle

/-- A sequence of operations, up to a panic. -/
def run (init : Fin n) : List (Fin n × Op) → UM n (List Out)
  | [] => pure []
  | x :: xs => do
    let r ← step init x
    if r = .initExiting then pure [r]
    else do
      let rs ← run init xs
      pure (r :: rs)

/-- Whether an operation, if it is a load or a store, is one below the size of the process. -/
def reaches (m : Machine n) (x : Fin n × Op) : Bool :=
  match x.2 with
  | .load va => va < (m.mem.proc x.1).sz
  | .store va _ => va < (m.mem.proc x.1).sz
  | _ => true

/-- Whether all loads and stores of living processes are below their sizes when they are made. -/
def inRange (init : Fin n) : List (Fin n × Op) → Machine n → Bool
  | [], _ => true
  | x :: xs, m => ((m.mem.proc x.1).stage ≠ .live || m.reaches x) &&
    match step init x m with
    | .ok (r, m') => r = .initExiting || inRange init xs m'
    | .error _ => true

end Machine

end Vm

end TrinityXv6
