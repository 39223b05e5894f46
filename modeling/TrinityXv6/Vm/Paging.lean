import TrinityXv6.Vm.State

/-!
# Virtual memory

The functions of `kernel/vm.c` that user processes use. A page table is passed as a value and the
changed table is returned. A pointer to an entry is the address it was looked up for: `walk` says
whether the entry exists, and the entry is then read with `Table.pte` and written with
`Table.setPte`.

User memory has no contents here. `copyinstr` is told where the string it reads ends.
-/

namespace TrinityXv6

namespace Vm

open Command

/-- The loop of `walk`, from level `k` down. -/
def walkFrom (alloc : Bool) (v : ℕ) :
    (k : ℕ) → Radix.Tree 512 Leaf k → VM (Bool × Radix.Tree 512 Leaf k)
  | 0, t => pure (true, t)
  | k + 1, t =>
    match t.entry (Radix.digit 512 (k + 1) v) with
    | some c => do
      let r ← walkFrom alloc v k c
      pure (r.1, ⟨t.page, Function.update t.entry (Radix.digit 512 (k + 1) v) (some r.2)⟩)
    | none =>
      if alloc then do
        let x ← kalloc
        match x with
        | none => pure (false, t)
        | some x => do
          let r ← walkFrom alloc v k (Radix.empty 512 Leaf k x)
          pure (r.1, ⟨t.page, Function.update t.entry (Radix.digit 512 (k + 1) v) (some r.2)⟩)
      else pure (false, t)

/-- `walk`: whether the entry for `va` exists, and the table, to which nodes may have been added. -/
def walk (t : Table) (va : ℕ) (alloc : Bool) : VM (Bool × Table) :=
  if maxva ≤ va then fail .walk else walkFrom alloc (va / pgsize) 2 t

/-- `walkaddr` -/
def walkaddr (t : Table) (va : ℕ) : VM (Option ℕ) :=
  if maxva ≤ va then pure none
  else do
    let r ← walk t va false
    if r.1 then
      match r.2.pte va with
      | none => pure none
      | some l => pure (if l.perm.u then some l.ppn else none)
    else pure none

/-- The loop of `mappages`, for `n + 1` pages. -/
def mappagesFrom (perm : Perm) : ℕ → Table → ℕ → ℕ → VM (Bool × Table)
  | n, t, a, pa => do
    let r ← walk t a true
    if r.1 then
      if (r.2.pte a).isSome then fail .remap
      else
        match n with
        | 0 => pure (true, r.2.setPte a (some ⟨pa, perm⟩))
        | n + 1 => mappagesFrom perm n (r.2.setPte a (some ⟨pa, perm⟩)) (a + pgsize) (pa + 1)
    else pure (false, r.2)

/-- `mappages`; the physical address is that of a page. -/
def mappages (t : Table) (va size pa : ℕ) (perm : Perm) : VM (Bool × Table) :=
  if va % pgsize ≠ 0 then fail .mappagesVa
  else if size % pgsize ≠ 0 then fail .mappagesAlign
  else if size = 0 then fail .mappagesSize
  else mappagesFrom perm (size / pgsize - 1) t va pa

/-- `uvmcreate` -/
def uvmcreate : VM (Option Table) := do
  let x ← kalloc
  pure (x.map fun x => Radix.empty 512 Leaf 2 x)

/-- `kfree` for a page that is to be freed. -/
def kfreeIf (doFree : Bool) (x : ℕ) : VM Unit := if doFree then kfree x else pure ()

/-- The loop of `uvmunmap`, for the next `n` pages. -/
def uvmunmapFrom (doFree : Bool) : ℕ → Table → ℕ → VM Table
  | 0, t, _ => pure t
  | n + 1, t, a => do
    let r ← walk t a false
    if r.1 then
      match r.2.pte a with
      | none => uvmunmapFrom doFree n r.2 (a + pgsize)
      | some l => do
        kfreeIf doFree l.ppn
        uvmunmapFrom doFree n (r.2.setPte a none) (a + pgsize)
    else uvmunmapFrom doFree n r.2 (a + pgsize)

/-- `uvmunmap` -/
def uvmunmap (t : Table) (va npages : ℕ) (doFree : Bool) : VM Table :=
  if va % pgsize ≠ 0 then fail .uvmunmap else uvmunmapFrom doFree npages t va

/-- An `int` that is made of an unsigned number, as an unsigned number again. -/
def toInt (x : ℕ) : ℕ := if x % 2 ^ 32 < 2 ^ 31 then x % 2 ^ 32 else x % 2 ^ 32 + (2 ^ 64 - 2 ^ 32)

/-- `uvmdealloc` -/
def uvmdealloc (t : Table) (oldsz newsz : ℕ) : VM (ℕ × Table) :=
  if oldsz ≤ newsz then pure (oldsz, t)
  else if pgroundup newsz < pgroundup oldsz then do
    let t ← uvmunmap t (pgroundup newsz) (toInt ((pgroundup oldsz - pgroundup newsz) / pgsize)) true
    pure (newsz, t)
  else pure (newsz, t)

/-- `uvmalloc` gives back what it has mapped, and fails. -/
def uvmallocUndo (t : Table) (a oldsz : ℕ) : VM (ℕ × Table) := do
  let r ← uvmdealloc t a oldsz
  pure (0, r.2)

/-- The loop of `uvmalloc`, for the next `n` pages; `oldsz` has been rounded. -/
def uvmallocFrom (oldsz newsz : ℕ) (perm : Perm) : ℕ → Table → ℕ → VM (ℕ × Table)
  | 0, t, _ => pure (newsz, t)
  | n + 1, t, a => do
    let mem ← kalloc
    match mem with
    | none => uvmallocUndo t a oldsz
    | some mem => do
      let r ← mappages t a pgsize mem perm
      if r.1 then uvmallocFrom oldsz newsz perm n r.2 (a + pgsize)
      else do
        kfree mem
        uvmallocUndo r.2 a oldsz

/-- `uvmalloc`. The loop runs while `a < newsz`, from `PGROUNDUP(oldsz)` in steps of a page. `w` and
`x` are `xperm`. -/
def uvmalloc (t : Table) (oldsz newsz : ℕ) (w x : Bool) : VM (ℕ × Table) :=
  if newsz < oldsz then pure (oldsz, t)
  else
    uvmallocFrom (pgroundup oldsz) newsz ⟨w, x, true⟩
      ((newsz - pgroundup oldsz + (pgsize - 1)) / pgsize) t (pgroundup oldsz)

/-- `freewalk` on the entries of one node; at level 0 there is nothing below. -/
def freewalkEntries {β : Type} (free : β → VM Unit) (entry : Fin 512 → Option β) :
    List (Fin 512) → VM Unit
  | [] => pure ()
  | i :: is =>
    match entry i with
    | none => freewalkEntries free entry is
    | some c => do
      free c
      freewalkEntries free entry is

/-- The numbers of the entries of a node; the unifier must not compute this list. -/
@[irreducible] def entries : List (Fin 512) := List.finRange 512

/-- `freewalk` -/
def freewalk : (k : ℕ) → Radix.Tree 512 Leaf k → VM Unit
  | 0, t => do
    freewalkEntries (fun _ => fail .freewalk) t.entry entries
    kfree t.page
  | k + 1, t => do
    freewalkEntries (freewalk k) t.entry entries
    kfree t.page

/-- `uvmunmap` of the first `sz` bytes, if there are any. -/
def uvmunmapSize (t : Table) (sz : ℕ) : VM Table :=
  if 0 < sz then uvmunmap t 0 (pgroundup sz / pgsize) true else pure t

/-- `uvmfree` -/
def uvmfree (t : Table) (sz : ℕ) : VM Unit := do
  let t ← uvmunmapSize t sz
  freewalk 2 t

/-- `uvmcopy` gives back what it has copied, and fails. -/
def uvmcopyErr (new : Table) (i : ℕ) : VM (Bool × Table) := do
  let t ← uvmunmap new 0 (i / pgsize) true
  pure (false, t)

/-- The loop of `uvmcopy`, for the next `n` pages. -/
def uvmcopyFrom (old : Table) : ℕ → Table → ℕ → VM (Bool × Table)
  | 0, new, _ => pure (true, new)
  | n + 1, new, i => do
    let r ← walk old i false
    if r.1 then
      match r.2.pte i with
      | none => uvmcopyFrom old n new (i + pgsize)
      | some l => do
        let mem ← kalloc
        match mem with
        | none => uvmcopyErr new i
        | some mem => do
          let m ← mappages new i pgsize mem l.perm
          if m.1 then uvmcopyFrom old n m.2 (i + pgsize)
          else do
            kfree mem
            uvmcopyErr m.2 i
    else uvmcopyFrom old n new (i + pgsize)

/-- `uvmcopy`: whether it succeeds, and the new table. -/
def uvmcopy (old new : Table) (sz : ℕ) : VM (Bool × Table) :=
  uvmcopyFrom old ((sz + (pgsize - 1)) / pgsize) new 0

/-- `uvmclear` -/
def uvmclear (t : Table) (va : ℕ) : VM Table := do
  let r ← walk t va false
  if r.1 then
    pure (r.2.setPte va ((r.2.pte va).map fun l => { l with perm := { l.perm with u := false } }))
  else fail .uvmclear

/-- `ismapped` -/
def ismapped (t : Table) (va : ℕ) : VM Bool := do
  let r ← walk t va false
  pure (r.1 && (r.2.pte va).isSome)

/-- The end of `vmfault`, for a page that is not mapped. -/
def vmfaultMap (t : Table) (va : ℕ) : VM (Option ℕ × Table) := do
  let mem ← kalloc
  match mem with
  | none => pure (none, t)
  | some mem => do
    let r ← mappages t va pgsize mem ⟨true, false, true⟩
    if r.1 then pure (some mem, r.2)
    else do
      kfree mem
      pure (none, r.2)

/-- `vmfault`: the page, if it could be mapped, and the table -/
def vmfault (t : Table) (psz va : ℕ) : VM (Option ℕ × Table) :=
  if psz ≤ va then pure (none, t)
  else do
    let mapped ← ismapped t (pgrounddown va)
    if mapped then pure (none, t) else vmfaultMap t (pgrounddown va)

/-- The page at `va0`, which is mapped now if it can be. -/
def userPage (t : Table) (psz va0 : ℕ) : VM (Option ℕ × Table) := do
  let pa0 ← walkaddr t va0
  match pa0 with
  | some pa => pure (some pa, t)
  | none => vmfault t psz va0

/-- The loop of `copyout`; every turn copies at least one byte. -/
def copyoutFrom (psz : ℕ) : ℕ → Table → ℕ → ℕ → VM (Bool × Table)
  | 0, t, _, _ => pure (true, t)
  | turns + 1, t, dstva, len =>
    if len = 0 then pure (true, t)
    else if maxva ≤ pgrounddown dstva then pure (false, t)
    else do
      let r ← userPage t psz (pgrounddown dstva)
      match r.1 with
      | none => pure (false, r.2)
      | some _ => do
        let found ← walk r.2 (pgrounddown dstva) false
        if found.1 then
          if ((found.2.pte (pgrounddown dstva)).map fun l => l.perm.w) = some true then
            copyoutFrom psz turns r.2 (pgrounddown dstva + pgsize)
              (len - (pgsize - (dstva - pgrounddown dstva)))
          else pure (false, r.2)
        else fail .fault

/-- `copyout` -/
def copyout (t : Table) (psz dstva len : ℕ) : VM (Bool × Table) := copyoutFrom psz len t dstva len

/-- The loop of `copyin`; every turn copies at least one byte. -/
def copyinFrom (psz : ℕ) : ℕ → Table → ℕ → ℕ → VM (Bool × Table)
  | 0, t, _, _ => pure (true, t)
  | turns + 1, t, srcva, len =>
    if len = 0 then pure (true, t)
    else do
      let r ← userPage t psz (pgrounddown srcva)
      match r.1 with
      | none => pure (false, r.2)
      | some _ =>
        copyinFrom psz turns r.2 (pgrounddown srcva + pgsize)
          (len - (pgsize - (srcva - pgrounddown srcva)))

/-- `copyin` -/
def copyin (t : Table) (psz srcva len : ℕ) : VM (Bool × Table) := copyinFrom psz len t srcva len

/-- The loop of `copyinstr`; every turn copies at least one byte. `nul` is how many bytes before the
end of the string are left. -/
def copyinstrFrom (psz : ℕ) : ℕ → Table → ℕ → ℕ → ℕ → VM (Bool × Table)
  | 0, t, _, _, _ => pure (false, t)
  | turns + 1, t, srcva, max, nul =>
    if max = 0 then pure (false, t)
    else do
      let r ← userPage t psz (pgrounddown srcva)
      match r.1 with
      | none => pure (false, r.2)
      | some _ =>
        if nul < min max (pgsize - (srcva - pgrounddown srcva)) then pure (true, r.2)
        else
          copyinstrFrom psz turns r.2 (pgrounddown srcva + pgsize)
            (max - (pgsize - (srcva - pgrounddown srcva)))
            (nul - (pgsize - (srcva - pgrounddown srcva)))

/-- `copyinstr` -/
def copyinstr (t : Table) (psz srcva max nul : ℕ) : VM (Bool × Table) :=
  copyinstrFrom psz max t srcva max nul

end Vm

end TrinityXv6
