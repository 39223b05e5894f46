import TrinityXv6.Fs.BlockSpec
import TrinityXv6.Fs.Syscall

/-!
# Reading and writing open files in small actions

Processes that share an open file share its offset, which has no lock of its own: `fileread` and
`filewrite` read it, hand it to `readi` or `writei`, and advance it by what those return, all while
they hold the lock of the inode.

In `TrinityXv6.Fs.Syscall` what happens under that lock is one action. Here the load of the offset,
the transfer, and the load and the store of `f->off += r` are actions of their own, between any two
of which other processes may run, so that what the lock is needed for is part of the model. The
state is that of the file system and a history: how often the lock of each inode was taken, and the
chunks that were transferred.
-/

namespace TrinityXv6

namespace Fs

open Threads Command
open Prog

variable {τ α β : Type} {sb : Superblock} {t : τ} {ip : Slot}

/-! ## Code that leaves open files and locks alone -/

/-- Open files and the holders of locks are as before. -/
structure Keeps (s s' : State τ) : Prop where
  ftable : s'.ftable = s.ftable
  lock : ∀ ip, (s'.itable ip).lock = (s.itable ip).lock

namespace Keeps

theorem refl (s : State τ) : Keeps s s := ⟨rfl, fun _ => rfl⟩

theorem trans {s s' s'' : State τ} (h : Keeps s s') (h' : Keeps s' s'') : Keeps s s'' :=
  ⟨h'.ftable.trans h.ftable, fun ip => (h'.lock ip).trans (h.lock ip)⟩

end Keeps

/-- Code that leaves open files and locks alone. -/
def Quiet (c : F τ α) : Prop := ∀ s, Ends (c s) (fun _ s' => Keeps s s') fun _ => True

namespace Quiet

theorem pure (a : α) : Quiet (pure a : F τ α) := fun s => .refl s

theorem fail (e : Halt) : Quiet (fail e : F τ α) := fun _ => trivial

theorem bind {c : F τ α} {k : α → F τ β} (hc : Quiet c) (hk : ∀ a, Quiet (k a)) :
    Quiet (c >>= k) := fun s =>
  (hc s).bind fun a s' hs => (hk a s').imp fun _ _ hs' => hs.trans hs'

theorem ite {p : Prop} [Decidable p] {c d : F τ α} (hc : Quiet c) (hd : Quiet d) :
    Quiet (if p then c else d) := by
  split_ifs
  · exact hc
  · exact hd

theorem bread (b : ℕ) : Quiet (bread b : F τ Blk) := fun s => .refl s

theorem inode (ip : Slot) : Quiet (inode ip : F τ (Inode τ)) := fun s => .refl s

theorem setDin (ip : Slot) (f : Dinode → Dinode) : Quiet (setDin ip f : F τ Unit) := fun _ =>
  ⟨rfl, Threads.view_update Inode.lock rfl⟩

variable [DecidableEq τ]

theorem logWrite (b : ℕ) (d : Blk) : Quiet (logWrite t b d) := fun s => by
  rw [Fs.logWrite]
  split_ifs
  · trivial
  · exact ⟨rfl, fun _ => rfl⟩

theorem balloc : Quiet (balloc sb t) := by
  have hin : ∀ b, Quiet (ballocIn sb t b) := fun b => by
    refine (bread _).bind fun d => ?_
    split
    · exact pure _
    · exact (logWrite _ _).bind fun _ => (logWrite _ _).bind fun _ => pure _
  have key : ∀ n b, Quiet (ballocFrom sb t n b) := by
    intro n
    induction n with
    | zero => exact fun b => pure 0
    | succ n ih =>
      refine fun b => (hin b).bind fun r => ?_
      cases r with
      | none => exact ih _
      | some a => exact pure _
  exact key _ 0

theorem bmapAddr (k : Fin (ndirect + 1)) : Quiet (bmapAddr sb t ip k) :=
  (inode ip).bind fun _ => ite
    (balloc.bind fun a => ite (pure 0) ((setDin ip _).bind fun _ => pure a)) (pure _)

theorem bmapEntry (root j : ℕ) : Quiet (bmapEntry sb t root j) :=
  (bread root).bind fun _ => ite
    (balloc.bind fun a => ite (pure 0) ((logWrite root _).bind fun _ => pure a)) (pure _)

theorem bmap (bn : ℕ) : Quiet (bmap sb t ip bn) := by
  rw [Fs.bmap]
  split_ifs
  · exact bmapAddr _
  · exact (bmapAddr _).bind fun root => ite (pure 0) (bmapEntry _ _)
  · exact fail _

theorem iupdate : Quiet (iupdate sb t ip) :=
  (inode ip).bind fun _ => (bread _).bind fun _ => logWrite _ _

end Quiet

/-! ## How far a transfer gets -/

/-- A transfer at an offset: nothing but blocks and the inode changes, and the offset behind what
was moved is still a 32-bit number. -/
def Transfers (io : ℕ → F τ ℤ) : Prop :=
  ∀ off < 2 ^ 32, ∀ s, Ends (io off s) (fun r s' => Keeps s s' ∧ (0 < r → off + r.toNat < 2 ^ 32))
    fun _ => True

section Transfers

variable [DecidableEq τ]

theorem readiFrom_le (dst : Dest) {n fuel tot : ℕ} (off : ℕ) (acc : List UInt8) (h : tot ≤ n)
    (s : State τ) : Ends (readiFrom sb t ip dst n fuel tot off acc s)
      (fun r s' => Keeps s s' ∧ r.1 ≤ n) fun _ => True := by
  have hz : (tot : ℤ) ≤ n := by exact_mod_cast h
  induction fuel generalizing tot off acc s with
  | zero => exact ⟨.refl s, hz⟩
  | succ fuel ih =>
    rw [readiFrom]
    split_ifs with hlt
    · refine (Quiet.bmap _ s).bind fun a s₁ h₁ => ?_
      split_ifs with ha
      · exact ⟨h₁, hz⟩
      · refine (Quiet.bread _ s₁).bind fun d s₂ h₂ => ?_
        split_ifs with hd
        · refine (ih _ _ (by omega) s₂ (by omega)).imp fun r s₃ ⟨h₃, hr⟩ => ?_
          exact ⟨(h₁.trans h₂).trans h₃, hr⟩
        · exact ⟨h₁.trans h₂, by show (-1 : ℤ) ≤ n; omega⟩
    · exact ⟨.refl s, hz⟩

theorem writeiFrom_le (src : Source) {n fuel tot : ℕ} (off : ℕ) (h : tot ≤ n) (s : State τ) :
    Ends (writeiFrom sb t ip src n fuel tot off s) (fun r s' => Keeps s s' ∧ r.1 ≤ n)
      fun _ => True := by
  induction fuel generalizing tot off s with
  | zero => exact ⟨.refl s, h⟩
  | succ fuel ih =>
    rw [writeiFrom]
    split_ifs with hlt
    · refine (Quiet.bmap _ s).bind fun a s₁ h₁ => ?_
      split_ifs with ha
      · exact ⟨h₁, h⟩
      · refine (Quiet.bread _ s₁).bind fun d s₂ h₂ => ?_
        cases src.fault tot (min (n - tot) (bsize - off % bsize)) with
        | some k =>
          exact (Quiet.logWrite _ _ s₂).bind fun _ s₃ h₃ => ⟨(h₁.trans h₂).trans h₃, h⟩
        | none =>
          refine (Quiet.logWrite _ _ s₂).bind fun _ s₃ h₃ => ?_
          refine (ih _ (by omega) s₃).imp fun r s₄ ⟨h₄, hr⟩ => ?_
          exact ⟨((h₁.trans h₂).trans h₃).trans h₄, hr⟩
    · exact ⟨.refl s, h⟩

/-- **`readi`** does not get behind the end of the file. -/
theorem readi_transfers (dst : Dest) (n : ℕ) :
    Transfers fun off => (do let r ← readi sb t ip dst off n; pure r.1 : F τ ℤ) := by
  intro off hoff s
  refine Ends.bind (Q := fun (r : ℤ × List UInt8) s' =>
    Keeps s s' ∧ (0 < r.1 → off + r.1.toNat < 2 ^ 32)) ?_ fun r s' h => h
  rw [readi, inode_bind]
  simp only
  split_ifs with hcheck hsize
  · exact ⟨.refl s, fun h => absurd h (lt_irrefl 0)⟩
  · refine (readiFrom_le dst off [] (Nat.zero_le _) s).imp fun r s' ⟨hs, hr⟩ => ⟨hs, fun _ => ?_⟩
    have := (s.itable ip).din.size.toNat_lt
    omega
  · refine (readiFrom_le dst off [] (Nat.zero_le _) s).imp fun r s' ⟨hs, hr⟩ => ⟨hs, fun _ => ?_⟩
    omega

/-- **`writei`** does not get behind the largest file. -/
theorem writei_transfers (src : Source) (n : ℕ) :
    Transfers fun off => writei sb t ip src off n := by
  intro off hoff s
  show Ends (writei sb t ip src off n s) _ _
  rw [writei, inode_bind]
  split_ifs with hcheck hmax
  · exact ⟨.refl s, fun h => absurd h (by decide)⟩
  · exact ⟨.refl s, fun h => absurd h (by decide)⟩
  · refine (writeiFrom_le src off (Nat.zero_le n) s).bind fun r s₁ ⟨h₁, hr⟩ => ?_
    have hgrow : Quiet (growSize ip r.2 : F τ Unit) :=
      (Quiet.inode ip).bind fun x => Quiet.ite (Quiet.setDin ip _) (Quiet.pure ())
    refine (hgrow s₁).bind fun _ s₂ h₂ => (Quiet.iupdate s₂).bind fun _ s₃ h₃ => ?_
    refine ⟨(h₁.trans h₂).trans h₃, fun _ => ?_⟩
    omega

end Transfers

/-! ## The calls in small actions -/

/-- A transfer that moved bytes: of which open file, during which turn of the lock of its inode,
from which offset on, and how many. -/
structure Chunk where
  file : FileId
  turn : ℕ
  off : ℕ
  count : ℕ
  deriving DecidableEq

/-- The state of the file system, how often the lock of each inode was taken, and the chunks that
were moved, the newest first. -/
structure Traced (τ : Type) where
  fs : State τ
  turn : Slot → ℕ
  chunks : List Chunk

namespace Traced

/-- No history yet. -/
def start (s : State τ) : Traced τ := ⟨s, fun _ => 0, []⟩

/-- The chunks of one open file, the newest first. -/
def chunksOf (s : Traced τ) (f : FileId) : List Chunk := s.chunks.filter (·.file = f)

end Traced

namespace Shared

/-- Programs over the state with its history. -/
abbrev T (τ α : Type) := Prog τ Chan Halt (Traced τ) α

/-- A program of the file system, which leaves the history alone. -/
def lift (p : M τ α) : T τ α := p.zoom Traced.fs fun s x => { s with fs := x }

/-- Run alone, a program with a history does what a program without one does. -/
def Erases (p : T τ α) (q : M τ α) : Prop :=
  ∀ t s, (p.solo t s).map (fun x => (x.1, x.2.fs)) = q.solo t s.fs

namespace Erases

theorem ret (a : α) : Erases (.ret a : T τ α) (.ret a) := fun _ _ => rfl

theorem lift (p : M τ α) : Erases (lift p) p := fun t s => by
  have h : (Shared.lift p).solo t s = _ :=
    solo_zoom (by intros; rfl) (by intros; rfl) (by intros; rfl) p t s
  rw [h]
  cases p.solo t s.fs <;> rfl

theorem bind {p : T τ α} {q : M τ α} {k : α → T τ β} {l : α → M τ β} (h : Erases p q)
    (hk : ∀ a, Erases (k a) (l a)) : Erases (p >>= k) (q >>= l) := fun t s => by
  rw [solo_bind, solo_bind, ← h t s]
  cases p.solo t s with
  | none => rfl
  | some x => exact hk x.1 t x.2

theorem ite {c : Prop} [Decidable c] {p p' : T τ α} {q q' : M τ α} (h : Erases p q)
    (h' : Erases p' q') : Erases (if c then p else p') (if c then q else q') := by
  by_cases hc : c
  · rw [if_pos hc, if_pos hc]
    exact h
  · rw [if_neg hc, if_neg hc]
    exact h'

end Erases

/-- Load `f->off`. -/
def load (f : FileId) : T τ UInt32 := .atomic fun _ s => .done (s.fs.ftable f).off s []

/-- Store `f->off`. -/
def store (f : FileId) (off : UInt32) : T τ Unit := .atomic fun _ s =>
  .done () { s with fs := s.fs.setFile f { s.fs.ftable f with off := off } } []

/-- The history after a transfer that returned `r`. -/
def record (f : FileId) (ip : Slot) (off : UInt32) (r : ℤ) (s : Traced τ) : List Chunk :=
  if 0 < r then ⟨f, s.turn ip, off.toNat, r.toNat⟩ :: s.chunks else s.chunks

/-- A transfer at an offset, as one entry of the history if it moved anything. -/
def move (f : FileId) (ip : Slot) (io : τ → ℕ → F τ ℤ) (off : UInt32) : T τ ℤ := .atomic fun t s =>
  match io t off.toNat s.fs with
  | .ok (r, x) => .done r { s with fs := x, chunks := record f ip off r s } []
  | .error e => .halt e

/-- What `fileread` and a turn of `filewrite` do under the lock: a transfer at `f->off`, and
`f->off += r`. -/
def transfer (f : FileId) (ip : Slot) (io : τ → ℕ → F τ ℤ) : T τ ℤ := do
  let off ← load f
  let r ← move f ip io off
  if 0 < r then do
    let off ← load f
    store f (off + UInt32.ofNat r.toNat)
    pure r
  else pure r

/-- The new offset after a transfer that returned `r`. -/
def advance (f : FileId) (r : ℤ) : F τ ℤ := do
  if 0 < r then
    modify fun s => s.setFile f { s.ftable f with
      off := (s.ftable f).off + UInt32.ofNat r.toNat }
  else pure ()
  pure r

/-- A transfer and the new offset, as one action. -/
def transferOnce (f : FileId) (io : τ → ℕ → F τ ℤ) : M τ ℤ := .cmd fun t s =>
  (io t (s.ftable f).off.toNat >>= advance f) s

theorem transfer_erases (f : FileId) (ip : Slot) (io : τ → ℕ → F τ ℤ) :
    Erases (transfer f ip io) (transferOnce f io) := fun t s => by
  have hload : ∀ x : Traced τ, (load f : T τ UInt32).solo t x = some ((x.fs.ftable f).off, x) :=
    fun _ => solo_atomic rfl
  rw [transfer, solo_bind_of_solo (hload s)]
  cases hio : io t (s.fs.ftable f).off.toNat s.fs with
  | error e =>
    have hmove : (move f ip io (s.fs.ftable f).off).solo t s = none := by
      simp [move, Prog.atomic, Prog.solo, hio]
    have honce : (transferOnce f io).solo t s.fs = none :=
      solo_cmd_error (bind_of_error hio)
    rw [solo_bind, hmove, honce]
    rfl
  | ok x =>
    obtain ⟨r, x⟩ := x
    have hmove : (move f ip io (s.fs.ftable f).off).solo t s =
        some (r, { s with fs := x, chunks := record f ip (s.fs.ftable f).off r s }) :=
      solo_atomic (w := []) (by simp only [hio])
    rw [solo_bind_of_solo hmove]
    by_cases hr : 0 < r
    · rw [if_pos hr, solo_bind_of_solo (hload _)]
      have honce : (transferOnce f io).solo t s.fs = _ :=
        solo_cmd ((bind_of_ok hio).trans (by rw [advance, if_pos hr]; rfl))
      rw [honce]
      rfl
    · rw [if_neg hr]
      have honce : (transferOnce f io).solo t s.fs = some (r, x) :=
        solo_cmd ((bind_of_ok hio).trans (by rw [advance, if_neg hr]; rfl))
      rw [honce]
      rfl

/-- `ilock`, with the turn counted. -/
def lock (sb : Superblock) (ip : Slot) : T τ Unit := do
  lift (ilock sb ip)
  .atomic fun _ s => .done () { s with turn := Function.update s.turn ip (s.turn ip + 1) } []

theorem lock_erases (ip : Slot) : Erases (lock sb ip : T τ Unit) (ilock sb ip) := by
  have h : Erases (lock sb ip : T τ Unit) (ilock sb ip >>= Prog.ret) :=
    (Erases.lift _).bind fun _ _ _ => rfl
  rwa [bind_ret] at h

variable [DecidableEq τ]

/-- `fileread` -/
def fileread (sb : Superblock) (f : FileId) (dst : Dest) (n : ℤ) (dev : Option ℤ) : T τ ℤ := do
  let x ← lift (file f)
  if x.readable = false ∨ n < 0 then pure (-1)
  else
    match x.type with
    | .device => pure (if x.major < 0 ∨ nDev ≤ x.major then -1 else dev.getD (-1))
    | .inode => do
      lock sb x.ip
      let r ← transfer f x.ip fun t off => do
        let r ← readi sb t x.ip dst off n.toNat
        pure r.1
      lift (iunlock x.ip)
      pure r
    | .none => lift (.cmd fun _ => fail .fileread)

/-- One turn of the loop of `filewrite`. -/
def filewriteOne (sb : Superblock) (f : FileId) (ip : Slot) (src : Source) (n : ℕ) : T τ ℤ := do
  lift beginOp
  lock sb ip
  let r ← transfer f ip fun t off => writei sb t ip src off n
  lift (iunlock ip)
  lift endOp
  pure r

/-- The loop of `filewrite`. -/
def filewriteFrom (sb : Superblock) (f : FileId) (ip : Slot) (src : Source) (n : ℕ) :
    (fuel i : ℕ) → T τ ℕ
  | 0, i => pure i
  | fuel + 1, i =>
    if i < n then do
      let n1 := min (n - i) filewriteMax
      let r ← filewriteOne sb f ip (src.drop i) n1
      if r = n1 then filewriteFrom sb f ip src n fuel (i + n1) else pure i
    else pure i

/-- `filewrite` -/
def filewrite (sb : Superblock) (f : FileId) (src : Source) (n : ℤ) (dev : Option ℤ) : T τ ℤ := do
  let x ← lift (file f)
  if x.writable = false ∨ n < 0 then pure (-1)
  else
    match x.type with
    | .device => pure (if x.major < 0 ∨ nDev ≤ x.major then -1 else dev.getD (-1))
    | .inode => do
      let i ← filewriteFrom sb f x.ip src n.toNat n.toNat 0
      pure (if i = n.toNat then n else -1)
    | .none => lift (.cmd fun _ => fail .filewrite)

/-! ### Run alone -/

theorem filereadLocked_eq (f : FileId) (ip : Slot) (dst : Dest) (n : ℕ) :
    (.cmd fun t => filereadLocked sb t f ip dst n : M τ ℤ) =
      transferOnce f (fun t off => do let r ← readi sb t ip dst off n; pure r.1) := by
  refine congrArg Prog.cmd (funext fun t => funext fun s => ?_)
  cases h : readi sb t ip dst (s.ftable f).off.toNat n s with
  | error e =>
    have hio : (do let r ← readi sb t ip dst (s.ftable f).off.toNat n; pure r.1 : F τ ℤ) s =
        .error e := bind_of_error h
    exact (bind_of_error h).trans (bind_of_error hio).symm
  | ok x =>
    have hio : (do let r ← readi sb t ip dst (s.ftable f).off.toNat n; pure r.1 : F τ ℤ) s =
        .ok (x.1.1, x.2) := bind_of_ok h
    exact (bind_of_ok h).trans (bind_of_ok (f := advance f) hio).symm

/-- **`fileread`**, run alone. -/
theorem fileread_erases (f : FileId) (dst : Dest) (n : ℤ) (dev : Option ℤ) :
    Erases (fileread sb f dst n dev : T τ ℤ) (Fs.fileread sb f dst n dev) := by
  refine (Erases.lift _).bind fun x => (Erases.ret _).ite ?_
  cases x.type with
  | device => exact .ret _
  | none => exact .lift _
  | inode =>
    refine (lock_erases _).bind fun _ => ?_
    refine Erases.bind ?_ fun r => (Erases.lift _).bind fun _ => .ret r
    rw [filereadLocked_eq]
    exact transfer_erases f _ _

theorem filewriteOne_erases (f : FileId) (ip : Slot) (src : Source) (n : ℕ) :
    Erases (filewriteOne sb f ip src n : T τ ℤ) (Fs.filewriteOne sb f ip src n) :=
  (Erases.lift _).bind fun _ => (lock_erases ip).bind fun _ =>
    (transfer_erases f ip _).bind fun r =>
      (Erases.lift _).bind fun _ => (Erases.lift _).bind fun _ => .ret r

theorem filewriteFrom_erases (f : FileId) (ip : Slot) (src : Source) (n fuel i : ℕ) :
    Erases (filewriteFrom sb f ip src n fuel i : T τ ℕ)
      (Fs.filewriteFrom sb f ip src n fuel i) := by
  induction fuel generalizing i with
  | zero => exact .ret i
  | succ fuel ih =>
    exact Erases.ite ((filewriteOne_erases f ip _ _).bind fun r => (ih _).ite (.ret i)) (.ret i)

/-- **`filewrite`**, run alone. -/
theorem filewrite_erases (f : FileId) (src : Source) (n : ℤ) (dev : Option ℤ) :
    Erases (filewrite sb f src n dev : T τ ℤ) (Fs.filewrite sb f src n dev) := by
  refine (Erases.lift _).bind fun x => (Erases.ret _).ite ?_
  cases x.type with
  | device => exact .ret _
  | none => exact .lift _
  | inode => exact (filewriteFrom_erases f _ src _ _ 0).bind fun i => .ret _

/-! ### The system -/

/-- The calls. -/
inductive Call where
  | read (f : FileId) (dst : Dest) (n : ℤ) (dev : Option ℤ)
  | write (f : FileId) (src : Source) (n : ℤ) (dev : Option ℤ)

/-- Any number of processes that read and write open files. -/
def system (sb : Superblock) : System τ Chan Halt (Traced τ) where
  Call := Call
  code
    | .read f dst n dev => do
      let _ ← fileread sb f dst n dev
      pure ()
    | .write f src n dev => do
      let _ ← filewrite sb f src n dev
      pure ()
  may _ _ _ := True
  resets := False
  reset s := s
  boot := .ret ()

end Shared

end Fs

end TrinityXv6
