import TrinityXv6.Vm.Paging

/-!
# The memory of processes

What the kernel does with pages: `allocproc`, `freeproc`, `proc_pagetable`, `growproc`, `kfork`,
`kexit` and `kwait` of `kernel/proc.c`, `kexec` of `kernel/exec.c`, `sys_sbrk`, `sys_exec`, page
faults, and the pipes of `kernel/pipe.c` with the file table that decides when a pipe is closed.

Operations follow one another, by any processes in any order. What a call reads from files and from
user memory is an argument of it: the header of a program and its segments, where strings end, and
how many blocks of a segment can be read. Files that are not pipes only take up room in the file
table, and working directories and the contents of pipes play no role.
-/

namespace TrinityXv6

namespace Vm

open Command

/-- `NOFILE` -/
abbrev nofile : ℕ := 16

/-- `NFILE` -/
abbrev nfile : ℕ := 100

/-- `MAXARG` -/
abbrev maxarg : ℕ := 32

/-- `MAXPATH` -/
abbrev maxpath : ℕ := 128

/-- `USERSTACK` -/
abbrev userstack : ℕ := 1

/-- What is in a slot of the process table. -/
inductive Stage where
  | unused
  | used
  | live
  | zombie
  deriving DecidableEq, Repr

/-- The parts of `struct proc` that have to do with memory and pipes. -/
structure Proc (n : ℕ) where
  stage : Stage
  trapframe : Option ℕ
  pagetable : Option Table
  sz : ℕ
  parent : Option (Fin n)
  ofile : Fin nofile → Option (Fin nfile)

/-- The type of a file, and which end of which pipe it is. A pipe is the page it is in. -/
inductive Kind where
  | none
  | pipe (pi : ℕ) (writable : Bool)
  | other
  deriving DecidableEq, Repr

/-- `struct file` -/
structure File where
  ref : ℕ
  kind : Kind

/-- `struct pipe` -/
structure Pipe where
  page : ℕ
  readopen : Bool
  writeopen : Bool

/-- Everything that holds pages. -/
structure Mem (n : ℕ) where
  kmem : Kmem
  proc : Fin n → Proc n
  file : Fin nfile → File
  pipes : List Pipe

/-- Code of the kernel. -/
abbrev MM (n : ℕ) := Cmd (Mem n) Panic

variable {n : ℕ} {α : Type}

/-- Run code that only allocates. -/
def onKmem (c : VM α) : MM n α := fun s =>
  match c s.kmem with
  | .ok (a, k) => .ok (a, { s with kmem := k })
  | .error e => .error e

namespace Mem

/-- Put a process into the table. -/
def setProc (s : Mem n) (p : Fin n) (v : Proc n) : Mem n :=
  { s with proc := Function.update s.proc p v }

/-- Put a file into the table. -/
def setFile (s : Mem n) (f : Fin nfile) (v : File) : Mem n :=
  { s with file := Function.update s.file f v }

end Mem

/-- Change one process. -/
def update (p : Fin n) (f : Proc n → Proc n) : MM n Unit :=
  modify fun s => s.setProc p (f (s.proc p))

/-- Run code on the page table of a process, with the size of the process. -/
def onTable (p : Fin n) (c : Table → ℕ → VM (α × Table)) : MM n α := do
  let s ← get
  match (s.proc p).pagetable with
  | none => fail .fault
  | some t => do
    let r ← onKmem (c t (s.proc p).sz)
    update p fun v => { v with pagetable := some r.2 }
    pure r.1

/-! ## Page tables of processes -/

/-- `proc_freepagetable` -/
def procFreepagetable (t : Table) (sz : ℕ) : VM Unit := do
  let t ← uvmunmap t Vm.trampoline 1 false
  let t ← uvmunmap t Vm.trapframe 1 false
  uvmfree t sz

/-- `proc_pagetable` after the trampoline has been mapped. -/
def procPagetableTrapframe (t : Table) (tf : ℕ) : VM (Option Table) := do
  let r ← mappages t Vm.trapframe pgsize tf ⟨true, false, false⟩
  if r.1 then pure (some r.2)
  else do
    let t ← uvmunmap r.2 Vm.trampoline 1 false
    uvmfree t 0
    pure none

/-- `proc_pagetable`, for a process with this trapframe -/
def procPagetable (tf : ℕ) : VM (Option Table) := do
  let t ← uvmcreate
  match t with
  | none => pure none
  | some t => do
    let k ← get
    let r ← mappages t Vm.trampoline pgsize k.tramp ⟨false, true, false⟩
    if r.1 then procPagetableTrapframe r.2 tf
    else do
      uvmfree r.2 0
      pure none

/-! ## Creating and freeing processes -/

/-- `kfree`, unless the pointer is zero. -/
def kfreePtr (x : Option ℕ) : VM Unit :=
  match x with
  | none => pure ()
  | some x => kfree x

/-- `proc_freepagetable`, unless the pointer is zero. -/
def freePtr (t : Option Table) (sz : ℕ) : VM Unit :=
  match t with
  | none => pure ()
  | some t => procFreepagetable t sz

/-- `freeproc` -/
def freeproc (p : Fin n) : MM n Unit := do
  let s ← get
  onKmem (kfreePtr (s.proc p).trapframe)
  onKmem (freePtr (s.proc p).pagetable (s.proc p).sz)
  update p fun v => { v with trapframe := none, pagetable := none, sz := 0, stage := .unused }

/-- `allocproc` gives up. -/
def allocprocFail (p : Fin n) : MM n (Option (Fin n)) := do
  freeproc p
  pure none

/-- `allocproc` on an unused slot. -/
def allocprocAt (p : Fin n) : MM n (Option (Fin n)) := do
  update p fun v => { v with stage := .used }
  let tf ← onKmem kalloc
  update p fun v => { v with trapframe := tf }
  match tf with
  | none => allocprocFail p
  | some tf => do
    let t ← onKmem (procPagetable tf)
    update p fun v => { v with pagetable := t }
    if t.isSome then pure (some p) else allocprocFail p

/-- `allocproc` -/
def allocproc : MM n (Option (Fin n)) := do
  let s ← get
  match (List.finRange n).find? fun p => (s.proc p).stage = .unused with
  | none => pure none
  | some p => allocprocAt p

/-- `userinit` -/
def userinit : MM n (Option (Fin n)) := do
  let p ← allocproc
  match p with
  | none => fail .fault
  | some p => do
    update p fun v => { v with stage := .live }
    pure (some p)

/-! ## Files and pipes -/

/-- `filealloc` -/
def filealloc : MM n (Option (Fin nfile)) := do
  let s ← get
  match (List.finRange nfile).find? fun f => (s.file f).ref = 0 with
  | none => pure none
  | some f => do
    modify fun s => s.setFile f { s.file f with ref := 1 }
    pure (some f)

/-- `filedup` -/
def filedup (f : Fin nfile) : MM n Unit := do
  let s ← get
  if (s.file f).ref < 1 then fail .filedup
  else modify fun s => s.setFile f { s.file f with ref := (s.file f).ref + 1 }

/-- The pipe after one of its ends has been closed. -/
def Pipe.close (x : Pipe) (writable : Bool) : Pipe :=
  if writable then { x with writeopen := false } else { x with readopen := false }

/-- `pipeclose` -/
def pipeclose (pi : ℕ) (writable : Bool) : MM n Unit := do
  let s ← get
  match s.pipes.find? fun x => x.page = pi with
  | none => fail .fault
  | some x =>
    if (x.close writable).readopen = false ∧ (x.close writable).writeopen = false then do
      modify fun s => { s with pipes := s.pipes.filter fun x => x.page ≠ pi }
      onKmem (kfree pi)
    else
      modify fun s =>
        { s with pipes := s.pipes.map fun x => if x.page = pi then x.close writable else x }

/-- What `fileclose` does to the file that nobody uses any more. -/
def filecloseKind : Kind → MM n Unit
  | .pipe pi writable => pipeclose pi writable
  | _ => pure ()

/-- `fileclose` -/
def fileclose (f : Fin nfile) : MM n Unit := do
  let s ← get
  if (s.file f).ref < 1 then fail .fileclose
  else if 1 < (s.file f).ref then
    modify fun s => s.setFile f { s.file f with ref := (s.file f).ref - 1 }
  else do
    modify fun s => s.setFile f ⟨0, .none⟩
    filecloseKind (s.file f).kind

/-- `fdalloc` -/
def fdalloc (p : Fin n) (f : Fin nfile) : MM n (Option (Fin nofile)) := do
  let s ← get
  match (List.finRange nofile).find? fun fd => (s.proc p).ofile fd = none with
  | none => pure none
  | some fd => do
    update p fun v => { v with ofile := Function.update v.ofile fd (some f) }
    pure (some fd)

/-- The end of `pipealloc`: both files become ends of the new pipe. -/
def pipeallocInit (f₀ f₁ : Fin nfile) (pi : ℕ) : MM n Unit :=
  modify fun s =>
    { (s.setFile f₀ { s.file f₀ with kind := .pipe pi false }).setFile f₁
        { s.file f₁ with kind := .pipe pi true } with
      pipes := ⟨pi, true, true⟩ :: s.pipes }

/-- `pipealloc` with both files, or with what it has got of them. -/
def pipealloc : MM n (Option (Fin nfile × Fin nfile)) := do
  let f₀ ← filealloc
  match f₀ with
  | none => pure none
  | some f₀ => do
    let f₁ ← filealloc
    match f₁ with
    | none => do
      fileclose f₀
      pure none
    | some f₁ => do
      let pi ← onKmem kalloc
      match pi with
      | none => do
        fileclose f₀
        fileclose f₁
        pure none
      | some pi => do
        pipeallocInit f₀ f₁ pi
        pure (some (f₀, f₁))

/-- How an operation ends. -/
inductive Res where
  | done
  | failed
  | sleeps
  deriving DecidableEq, Repr

/-- Whether an operation that reports success or failure has succeeded. -/
def Res.of (b : Bool) : Res := if b then .done else .failed

/-- `sys_pipe` gives up: it clears the descriptors it has used and closes both files. -/
def sysPipeFail (p : Fin n) (fds : List (Fin nofile)) (f₀ f₁ : Fin nfile) : MM n Res := do
  update p fun v => { v with ofile := fun fd => if fd ∈ fds then none else v.ofile fd }
  fileclose f₀
  fileclose f₁
  pure .failed

/-- The two calls of `copyout` in `sys_pipe`. -/
def sysPipeCopy (p : Fin n) (fdarray : ℕ) : MM n Bool := do
  let ok ← onTable p fun t sz => copyout t sz fdarray 4
  if ok then onTable p fun t sz => copyout t sz ((fdarray + 4) % 2 ^ 64) 4 else pure false

/-- `sys_pipe` -/
def sysPipe (p : Fin n) (fdarray : ℕ) : MM n Res := do
  let r ← pipealloc
  match r with
  | none => pure .failed
  | some (f₀, f₁) => do
    let fd₀ ← fdalloc p f₀
    match fd₀ with
    | none => sysPipeFail p [] f₀ f₁
    | some fd₀ => do
      let fd₁ ← fdalloc p f₁
      match fd₁ with
      | none => sysPipeFail p [fd₀] f₀ f₁
      | some fd₁ => do
        let ok ← sysPipeCopy p fdarray
        if ok then pure .done else sysPipeFail p [fd₀, fd₁] f₀ f₁

/-- `sys_close` -/
def sysClose (p : Fin n) (fd : Fin nofile) : MM n Res := do
  let s ← get
  match (s.proc p).ofile fd with
  | none => pure .failed
  | some f => do
    update p fun v => { v with ofile := Function.update v.ofile fd none }
    fileclose f
    pure .done

/-- `sys_dup` -/
def sysDup (p : Fin n) (fd : Fin nofile) : MM n Res := do
  let s ← get
  match (s.proc p).ofile fd with
  | none => pure .failed
  | some f => do
    let r ← fdalloc p f
    match r with
    | none => pure .failed
    | some _ => do
      filedup f
      pure .done

/-- What `sys_open` does to the file table. -/
def sysOpen (p : Fin n) : MM n Res := do
  let f ← filealloc
  match f with
  | none => pure .failed
  | some f => do
    let fd ← fdalloc p f
    match fd with
    | none => do
      fileclose f
      pure .failed
    | some _ => do
      modify fun s => s.setFile f { s.file f with kind := .other }
      pure .done

/-! ## Growing and shrinking -/

/-- `growproc` by a positive number of bytes. -/
def growprocUp (p : Fin n) (bytes : ℕ) : MM n Bool := do
  let s ← get
  if Vm.trapframe < ((s.proc p).sz + bytes) % 2 ^ 64 then pure false
  else do
    let sz ← onTable p fun t sz => uvmalloc t sz ((sz + bytes) % 2 ^ 64) true false
    if sz = 0 then pure false
    else do
      update p fun v => { v with sz := sz }
      pure true

/-- `growproc` by a negative number of bytes. -/
def growprocDown (p : Fin n) (bytes : ℕ) : MM n Bool := do
  let sz ← onTable p fun t sz => uvmdealloc t sz ((sz + (2 ^ 64 - bytes)) % 2 ^ 64)
  update p fun v => { v with sz := sz }
  pure true

/-- `growproc` -/
def growproc (p : Fin n) (k : Int32) : MM n Bool :=
  if 0 < k.toInt then growprocUp p k.toInt.toNat
  else if k.toInt < 0 then growprocDown p (-k.toInt).toNat
  else pure true

/-- `sys_sbrk`; the second argument is `SBRK_EAGER` or something else. -/
def sysSbrk (p : Fin n) (k t : Int32) : MM n Bool :=
  if t = 1 ∨ k.toInt < 0 then growproc p k
  else do
    let s ← get
    if ((s.proc p).sz + k.toInt.toNat) % 2 ^ 64 < (s.proc p).sz then pure false
    else if Vm.trapframe < ((s.proc p).sz + k.toInt.toNat) % 2 ^ 64 then pure false
    else do
      update p fun v => { v with sz := (v.sz + k.toInt.toNat) % 2 ^ 64 }
      pure true

/-! ## Fork, exit and wait -/

/-- The loop of `kfork` over the open files. -/
def kforkFiles (p q : Fin n) : List (Fin nofile) → MM n Unit
  | [] => pure ()
  | fd :: fds => do
    let s ← get
    match (s.proc p).ofile fd with
    | none => kforkFiles p q fds
    | some f => do
      filedup f
      update q fun v => { v with ofile := Function.update v.ofile fd (some f) }
      kforkFiles p q fds

/-- `uvmcopy(p->pagetable, np->pagetable, p->sz)` -/
def kforkCopy (p q : Fin n) : MM n Bool := do
  let s ← get
  match (s.proc p).pagetable with
  | none => fail .fault
  | some old => onTable q fun new _ => uvmcopy old new (s.proc p).sz

/-- `kfork` -/
def kfork (p : Fin n) : MM n Res := do
  let np ← allocproc
  match np with
  | none => pure .failed
  | some q => do
    let ok ← kforkCopy p q
    if ok then do
      let s ← get
      update q fun v => { v with sz := (s.proc p).sz }
      kforkFiles p q (List.finRange nofile)
      update q fun v => { v with parent := some p, stage := .live }
      pure .done
    else do
      freeproc q
      pure .failed

/-- The loop of `kexit` over the open files. -/
def kexitFiles (p : Fin n) : List (Fin nofile) → MM n Unit
  | [] => pure ()
  | fd :: fds => do
    let s ← get
    match (s.proc p).ofile fd with
    | none => kexitFiles p fds
    | some f => do
      fileclose f
      update p fun v => { v with ofile := Function.update v.ofile fd none }
      kexitFiles p fds

/-- `reparent` -/
def reparent (init p : Fin n) (s : Mem n) : Mem n :=
  { s with proc := fun q =>
      if (s.proc q).parent = some p then { s.proc q with parent := some init } else s.proc q }

/-- `kexit` -/
def kexit (init p : Fin n) : MM n Res :=
  if p = init then fail .initExiting
  else do
    kexitFiles p (List.finRange nofile)
    modify (reparent init p)
    update p fun v => { v with stage := .zombie }
    pure .done

/-- `kwait` frees a zombie. -/
def kwaitReap (q : Fin n) : MM n Res := do
  update q fun v => { v with parent := none }
  freeproc q
  pure .done

/-- `kwait`: the first child that is a zombie is freed, after its status has been copied out. -/
def kwait (p : Fin n) (addr : ℕ) : MM n Res := do
  let s ← get
  match (List.finRange n).find? fun q =>
      (s.proc q).parent = some p ∧ (s.proc q).stage = .zombie with
  | some q =>
    if addr = 0 then kwaitReap q
    else do
      let ok ← onTable p fun t sz => copyout t sz addr 4
      if ok then kwaitReap q else pure .failed
  | none =>
    if (List.finRange n).any fun q => (s.proc q).parent = some p then pure .sleeps
    else pure .failed

/-! ## Exec -/

/-- `struct proghdr`, and of how many pages of the segment the file has the contents. -/
structure Segment where
  load : Bool
  w : Bool
  x : Bool
  vaddr : UInt64
  memsz : UInt64
  filesz : UInt64
  pages : ℕ

/-- A program: whether the header could be read and has the magic number, and the program headers,
as far as they could be read. -/
structure Program where
  header : Bool
  segments : List (Option Segment)

/-- The loop of `loadseg`, for a file that has the contents of the next `pages` pages. -/
def loadsegFrom (t : Table) (va sz : ℕ) : ℕ → ℕ → VM Bool
  | pages, i =>
    if i < sz then do
      let pa ← walkaddr t (va + i)
      match pa with
      | none => fail .loadseg
      | some _ =>
        match pages with
        | 0 => pure false
        | pages + 1 => loadsegFrom t va sz pages ((i + pgsize) % 2 ^ 32)
    else pure true

/-- `loadseg`; the size is converted to `uint`. -/
def loadseg (t : Table) (va sz pages : ℕ) : VM Bool := loadsegFrom t va (sz % 2 ^ 32) pages 0

/-- One turn of the loop of `kexec` over the program headers: whether it goes on, the table and the
size. -/
def kexecSegment (t : Table) (sz : ℕ) (ph : Segment) : VM (Bool × Table × ℕ) :=
  if !ph.load then pure (true, t, sz)
  else if ph.memsz < ph.filesz then pure (false, t, sz)
  else if ph.vaddr + ph.memsz < ph.vaddr then pure (false, t, sz)
  else if ph.vaddr.toNat % pgsize ≠ 0 then pure (false, t, sz)
  else do
    let r ← uvmalloc t sz (ph.vaddr + ph.memsz).toNat ph.w ph.x
    if r.1 = 0 then pure (false, r.2, sz)
    else do
      let ok ← loadseg r.2 ph.vaddr.toNat ph.filesz.toNat ph.pages
      pure (ok, r.2, r.1)

/-- The loop of `kexec` over the program headers. -/
def kexecLoad : List (Option Segment) → Table → ℕ → VM (Bool × Table × ℕ)
  | [], t, sz => pure (true, t, sz)
  | none :: _, t, sz => pure (false, t, sz)
  | some ph :: phs, t, sz => do
    let r ← kexecSegment t sz ph
    if r.1 then kexecLoad phs r.2.1 r.2.2 else pure r

/-- `a - b` modulo `2 ^ 64` -/
def sub64 (a b : ℕ) : ℕ := (a + (2 ^ 64 - b % 2 ^ 64)) % 2 ^ 64

/-- The loop of `kexec` that pushes the arguments; `lens` are their lengths. -/
def kexecArgs (sz stackbase : ℕ) : List ℕ → Table → ℕ → VM (Option ℕ × Table)
  | [], t, sp => pure (some sp, t)
  | len :: lens, t, sp => do
    let sp := sub64 sp (len + 1)
    let sp := sp - sp % 16
    if sp < stackbase then pure (none, t)
    else do
      let r ← copyout t sz sp (len + 1)
      if r.1 then kexecArgs sz stackbase lens r.2 sp else pure (none, r.2)

/-- `kexec` pushes the array of pointers to the arguments, if these could be pushed. -/
def kexecArgv (sz stackbase argc : ℕ) : Option ℕ × Table → VM (Bool × Table)
  | (none, t) => pure (false, t)
  | (some sp, t) => do
    let sp := sub64 sp ((argc + 1) * 8)
    let sp := sp - sp % 16
    if sp < stackbase then pure (false, t) else copyout t sz sp ((argc + 1) * 8)

/-- `kexec` makes the stack and pushes the arguments. -/
def kexecStack (lens : List ℕ) (t : Table) (sz : ℕ) : VM (Bool × Table × ℕ) := do
  let r ← uvmalloc t (pgroundup sz) (pgroundup sz + (userstack + 1) * pgsize) true false
  if r.1 = 0 then pure (false, r.2, pgroundup sz)
  else do
    let t ← uvmclear r.2 (r.1 - (userstack + 1) * pgsize)
    let a ← kexecArgs r.1 (r.1 - userstack * pgsize) lens t r.1
    let b ← kexecArgv r.1 (r.1 - userstack * pgsize) lens.length a
    pure (b.1, b.2, r.1)

/-- `kexec` makes the new page table, up to the point where it replaces the old one: the table and
the size, or `none` after the new table has been freed. -/
def kexecTable (prog : Program) (lens : List ℕ) (tf : ℕ) : VM (Option (Table × ℕ)) :=
  if !prog.header then pure none
  else do
    let t ← procPagetable tf
    match t with
    | none => pure none
    | some t => do
      let r ← kexecLoad prog.segments t 0
      if r.1 then do
        let r ← kexecStack lens r.2.1 r.2.2
        if r.1 then pure (some r.2)
        else do
          procFreepagetable r.2.1 r.2.2
          pure none
      else do
        procFreepagetable r.2.1 r.2.2
        pure none

/-- `kexec`; `none` is a path that leads nowhere. -/
def kexec (p : Fin n) (prog : Option Program) (lens : List ℕ) : MM n Bool := do
  let s ← get
  match prog with
  | none => pure false
  | some prog =>
    match (s.proc p).trapframe, (s.proc p).pagetable with
    | some tf, some old => do
      let r ← onKmem (kexecTable prog lens tf)
      match r with
      | none => pure false
      | some (t, sz) => do
        update p fun v => { v with pagetable := some t, sz := sz }
        onKmem (procFreepagetable old (s.proc p).sz)
        pure true
    | _, _ => fail .fault

/-- `fetchaddr` -/
def fetchaddr (p : Fin n) (addr : ℕ) : MM n Bool := do
  let s ← get
  if (s.proc p).sz ≤ addr ∨ (s.proc p).sz < (addr + 8) % 2 ^ 64 then pure false
  else onTable p fun t sz => copyin t sz addr 8

/-- `fetchstr` -/
def fetchstr (p : Fin n) (addr max nul : ℕ) : MM n Bool :=
  onTable p fun t sz => copyinstr t sz addr max nul

/-- The loop of `sys_exec` over the arguments: whether it succeeds, and the pages it has taken, last
one first. An argument is its address and its length. -/
def sysExecArgs (p : Fin n) (uargv : ℕ) :
    List (ℕ × ℕ) → ℕ → List ℕ → MM n (Bool × List ℕ)
  | args, i, pages =>
    if maxarg ≤ i then pure (false, pages)
    else do
      let ok ← fetchaddr p ((uargv + 8 * i) % 2 ^ 64)
      if ok then
        match args with
        | [] => pure (true, pages)
        | (uarg, len) :: args => do
          let page ← onKmem kalloc
          match page with
          | none => pure (false, pages)
          | some page => do
            let ok ← fetchstr p uarg pgsize len
            if ok then sysExecArgs p uargv args (i + 1) (page :: pages)
            else pure (false, page :: pages)
      else pure (false, pages)

/-- `sys_exec` frees the pages of the arguments. -/
def kfreeAll : List ℕ → VM Unit
  | [] => pure ()
  | x :: xs => do
    kfree x
    kfreeAll xs

/-- `sys_exec`; `path` is the address and the length of the path. -/
def sysExec (p : Fin n) (path : ℕ × ℕ) (uargv : ℕ) (args : List (ℕ × ℕ)) (prog : Option Program) :
    MM n Bool := do
  let ok ← fetchstr p path.1 maxpath path.2
  if ok then do
    let r ← sysExecArgs p uargv args 0 []
    if r.1 then do
      let ret ← kexec p prog (args.map Prod.snd)
      onKmem (kfreeAll r.2.reverse)
      pure ret
    else do
      onKmem (kfreeAll r.2.reverse)
      pure false
  else pure false

/-! ## Sequences of operations -/

/-- What a process can ask for. -/
inductive Op where
  | kfork
  | kexit
  | kwait (addr : ℕ)
  | kexec (prog : Option Program) (lens : List ℕ)
  | sysExec (path : ℕ × ℕ) (uargv : ℕ) (args : List (ℕ × ℕ)) (prog : Option Program)
  | sysSbrk (k t : Int32)
  | vmfault (va : ℕ)
  | copyout (dstva len : ℕ)
  | copyin (srcva len : ℕ)
  | copyinstr (srcva max nul : ℕ)
  | sysPipe (fdarray : ℕ)
  | sysClose (fd : Fin nofile)
  | sysDup (fd : Fin nofile)
  | sysOpen

/-- The result of code that reports success. -/
def result (c : MM n Bool) : MM n Res := do
  let ok ← c
  pure (Res.of ok)

/-- One operation of process `p`. -/
def Op.code (init p : Fin n) : Op → MM n Res
  | .kfork => Vm.kfork p
  | .kexit => Vm.kexit init p
  | .kwait addr => Vm.kwait p addr
  | .kexec prog lens => result (Vm.kexec p prog lens)
  | .sysExec path uargv args prog => result (Vm.sysExec p path uargv args prog)
  | .sysSbrk k t => result (Vm.sysSbrk p k t)
  | .vmfault va => result (do
    let r ← onTable p fun t sz => Vm.vmfault t sz va
    pure r.isSome)
  | .copyout dstva len => result (onTable p fun t sz => Vm.copyout t sz dstva len)
  | .copyin srcva len => result (onTable p fun t sz => Vm.copyin t sz srcva len)
  | .copyinstr srcva max nul => result (onTable p fun t sz => Vm.copyinstr t sz srcva max nul)
  | .sysPipe fdarray => Vm.sysPipe p fdarray
  | .sysClose fd => Vm.sysClose p fd
  | .sysDup fd => Vm.sysDup p fd
  | .sysOpen => Vm.sysOpen p

/-- One operation of a process that is alive; others do nothing. -/
def step (init : Fin n) (x : Fin n × Op) : MM n Res := do
  let s ← get
  if (s.proc x.1).stage = .live then x.2.code init x.1 else pure .done

/-- A sequence of operations. -/
def run (init : Fin n) : List (Fin n × Op) → MM n Unit
  | [] => pure ()
  | x :: xs => do
    let _ ← step init x
    run init xs

end Vm

end TrinityXv6
