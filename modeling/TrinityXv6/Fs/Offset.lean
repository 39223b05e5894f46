import TrinityXv6.Fs.Files
import TrinityXv6.Fs.Shared

/-!
# Shared offsets

Processes that read and write the same open file never overlap. A process knows the offset it
loaded to be the file's until it gives the lock of the inode back, because whoever changes the
offset of a file has the lock of its inode. The invariant says what a process with the lock still
owes to the offset; everybody else owes nothing.

Nothing is assumed of the disk. What keeps offsets from wrapping around are the checks of `readi`
and `writei` themselves.

## Main definitions

* `Consecutive` — chunks each of which starts where the one before ended
* `Shared.View`, `Shared.Inv` — what a process knows while it has a lock, and the invariant

## Main results

* `Shared.safe_call` — every call keeps the invariant
* `shared_offset` — chunks are consecutive in the order of the lock
-/

namespace TrinityXv6

namespace Fs

open Threads Command
open Option
open Function (update update_self update_of_ne update_eq_self)

variable {τ α : Type} {sb : Superblock} {t : τ} {ip : Slot} {cs : List Chunk} {start : ℕ}

/-! ## Chunks in a row -/

/-- How much a list of chunks moved. -/
def total (cs : List Chunk) : ℕ := (cs.map Chunk.count).sum

/-- Each chunk starts where the ones before it ended; the newest is first. -/
def Consecutive (start : ℕ) : List Chunk → Prop
  | [] => True
  | c :: cs => c.off = start + total cs ∧ Consecutive start cs

/-- The chunk moved the byte at offset `q`. -/
def Chunk.Covers (c : Chunk) (q : ℕ) : Prop := c.off ≤ q ∧ q < c.off + c.count

theorem Consecutive.end_le (h : Consecutive start cs) :
    ∀ c ∈ cs, c.off + c.count ≤ start + total cs := by
  induction cs with
  | nil => exact fun _ hc => absurd hc List.not_mem_nil
  | cons d cs ih =>
    intro c hc
    have htotal : total (d :: cs) = d.count + total cs := by simp [total]
    rcases List.mem_cons.mp hc with rfl | hc
    · have := h.1
      omega
    · have := ih h.2 c hc
      omega

/-- **Consecutive chunks are disjoint.** -/
theorem Consecutive.disjoint (h : Consecutive start cs) :
    cs.Pairwise fun c d => ∀ q, c.Covers q → ¬ d.Covers q := by
  induction cs with
  | nil => exact .nil
  | cons c cs ih =>
    refine .cons (fun d hd => ?_) (ih h.2)
    have hle := h.2.end_le d hd
    have hoff := h.1
    intro q hc hd'
    have hlo := hc.1
    have hhi := hd'.2
    omega

namespace Shared

/-! ## The invariant -/

/-- What a process is doing with an inode: it has the lock, it has the lock and has not moved
anything in this turn, it has loaded an offset, or it has moved `r` bytes and not yet advanced the
offset. -/
inductive View where
  | out
  | locked (ip : Slot)
  | turned (ip : Slot)
  | loaded (f : FileId) (ip : Slot) (off : UInt32)
  | moved (f : FileId) (ip : Slot) (off : UInt32) (r : ℕ)

/-- The inode whose lock a process has. -/
def View.held : View → Option Slot
  | .out => none
  | .locked ip | .turned ip | .loaded _ ip _ | .moved _ ip _ _ => some ip

/-- The inode whose lock a process has, if it has not moved anything in this turn. -/
def View.unused : View → Option Slot
  | .turned ip | .loaded _ ip _ => some ip
  | .out | .locked _ | .moved .. => none

/-- The open file a process works on. -/
def View.file : View → Option FileId
  | .loaded f .. | .moved f .. => some f
  | .out | .locked _ | .turned _ => none

/-- What a process still has to add to the offset of a file. -/
def View.owes (f : FileId) : View → ℕ
  | .moved f' _ _ r => if f' = f then r else 0
  | .out | .locked _ | .turned _ | .loaded .. => 0

/-- The invariant, from a start in state `s₀`. -/
structure Inv (s₀ : State τ) (s : Traced τ) (G : τ → View) : Prop where
  lock : ∀ t ip, (G t).held = some ip → (s.fs.itable ip).lock = some t
  place : ∀ t f, (G t).file = some f → (G t).held = some (s₀.ftable f).ip
  file : ∀ f, s.fs.ftable f = { s₀.ftable f with off := (s.fs.ftable f).off }
  turn_le : ∀ c ∈ s.chunks, c.turn ≤ s.turn (s₀.ftable c.file).ip
  turn_lt : ∀ t ip, (G t).unused = some ip → ∀ c ∈ s.chunks, (s₀.ftable c.file).ip = ip →
    c.turn < s.turn ip
  sorted : ∀ f, (s.chunksOf f).Pairwise fun c d => d.turn < c.turn
  consecutive : ∀ f, Consecutive (s₀.ftable f).off.toNat (s.chunksOf f)
  loaded : ∀ t f ip off, G t = .loaded f ip off → (s.fs.ftable f).off = off
  moved : ∀ t f ip off r, G t = .moved f ip off r → (s.fs.ftable f).off = off ∧
    off.toNat + r < 2 ^ 32 ∧ off.toNat + r = (s₀.ftable f).off.toNat + total (s.chunksOf f)
  settled : ∀ f, (∀ t, (G t).owes f = 0) →
    (s.fs.ftable f).off.toNat = (s₀.ftable f).off.toNat + total (s.chunksOf f)

namespace Inv

variable {s₀ x : State τ} {s : Traced τ} {G : τ → View} {f : FileId} {off : UInt32} {r : ℕ}

/-- The lock of an inode has one holder. -/
theorem eq_of_held (h : Inv s₀ s G) {u : τ} (ht : (G t).held = some ip)
    (hu : (G u).held = some ip) : u = t := by
  have := (h.lock u ip hu).symm.trans (h.lock t ip ht)
  simpa using this

/-- A process that has the lock of a file's inode is the only one that works on the file. -/
theorem eq_of_file (h : Inv s₀ s G) {u : τ} (ht : (G t).held = some (s₀.ftable f).ip)
    (hu : (G u).file = some f) : u = t :=
  h.eq_of_held ht (h.place u f hu)

theorem file_of_owes {g : View} (h : g.owes f ≠ 0) : g.file = some f := by
  cases g with
  | moved f' ip off r =>
    by_cases hf : f' = f
    · rw [← hf]
      rfl
    · exact absurd (if_neg hf) h
  | out => exact absurd rfl h
  | locked ip => exact absurd rfl h
  | turned ip => exact absurd rfl h
  | loaded f' ip off => exact absurd rfl h

variable (h : Inv s₀ s G)
include h

/-- The file system changes, but no open file does and every lock a process knows it has. -/
theorem change (hx : x.ftable = s.fs.ftable)
    (hlock : ∀ t ip, (G t).held = some ip → (x.itable ip).lock = some t) :
    Inv s₀ { s with fs := x } G where
  lock := hlock
  place := h.place
  file f := by
    rw [hx]
    exact h.file f
  turn_le := h.turn_le
  turn_lt := h.turn_lt
  sorted := h.sorted
  consecutive := h.consecutive
  loaded t f ip off ht := by
    rw [hx]
    exact h.loaded t f ip off ht
  moved t f ip off r ht := by
    rw [hx]
    exact h.moved t f ip off r ht
  settled f hf := by
    rw [hx]
    exact h.settled f hf

/-- Code that leaves open files and locks alone. -/
theorem keep (hx : Keeps s.fs x) : Inv s₀ { s with fs := x } G :=
  h.change hx.ftable fun t ip ht => (hx.lock ip).trans (h.lock t ip ht)

/-- The offset a process has loaded is behind everything that was moved. -/
theorem loaded_eq (ht : G t = .loaded f ip off) :
    off.toNat = (s₀.ftable f).off.toNat + total (s.chunksOf f) := by
  have hfile : (G t).file = some f := by rw [ht]; rfl
  rw [← h.loaded t f ip off ht]
  refine h.settled f fun u => ?_
  by_contra howes
  obtain rfl := h.eq_of_file (h.place t f hfile) (file_of_owes howes)
  rw [ht] at howes
  exact howes rfl

variable [DecidableEq τ]

/-- The view of a process changes, and with it what it owes. -/
theorem view {g : View} (hheld : ∀ ip, g.held = some ip → (s.fs.itable ip).lock = some t)
    (hplace : ∀ f, g.file = some f → g.held = some (s₀.ftable f).ip)
    (hturn : ∀ ip, g.unused = some ip → ∀ c ∈ s.chunks, (s₀.ftable c.file).ip = ip →
      c.turn < s.turn ip) (hloaded : ∀ f ip off, g = .loaded f ip off → (s.fs.ftable f).off = off)
    (hmoved : ∀ f ip off r, g ≠ .moved f ip off r) (howes : ∀ f, (G t).owes f = 0) :
    Inv s₀ s (update G t g) where
  lock u ip hu := by
    rcases update_cases hu with ⟨rfl, hg⟩ | ⟨-, hu⟩
    · exact hheld ip hg
    · exact h.lock u ip hu
  place u f hu := by
    rcases update_cases hu with ⟨rfl, hg⟩ | ⟨hne, hu⟩
    · rw [update_self]
      exact hplace f hg
    · rw [update_of_ne hne]
      exact h.place u f hu
  file := h.file
  turn_le := h.turn_le
  turn_lt u ip hu := by
    rcases update_cases hu with ⟨rfl, hg⟩ | ⟨-, hu⟩
    · exact hturn ip hg
    · exact h.turn_lt u ip hu
  sorted := h.sorted
  consecutive := h.consecutive
  loaded u f ip off hu := by
    rcases update_cases (f := id) hu with ⟨rfl, hg⟩ | ⟨-, hu⟩
    · exact hloaded f ip off hg
    · exact h.loaded u f ip off hu
  moved u f ip off r hu := by
    rcases update_cases (f := id) hu with ⟨rfl, hg⟩ | ⟨-, hu⟩
    · exact absurd hg (hmoved f ip off r)
    · exact h.moved u f ip off r hu
  settled f hf := by
    refine h.settled f fun u => ?_
    rcases eq_or_ne u t with rfl | hne
    · exact howes f
    · have := hf u
      rwa [update_of_ne hne] at this

/-- A process takes the lock of an inode. -/
theorem acquire (ht : G t = .out) (hfree : (s.fs.itable ip).lock = none)
    (hx : x.ftable = s.fs.ftable) (hself : (x.itable ip).lock = some t)
    (hother : ∀ jp, jp ≠ ip → (x.itable jp).lock = (s.fs.itable jp).lock) :
    Inv s₀ { s with fs := x } (update G t (.locked ip)) := by
  have h' : Inv s₀ { s with fs := x } G := by
    refine h.change hx fun u jp hu => ?_
    have hlock := h.lock u jp hu
    have hne : jp ≠ ip := by
      rintro rfl
      rw [hfree] at hlock
      cases hlock
    rw [hother jp hne, hlock]
  refine h'.view (fun jp hjp => ?_) (fun _ hf => ?_) (fun _ hu => ?_) (fun _ _ _ hl => ?_)
    (fun _ _ _ _ hm => ?_) fun f => ?_
  · obtain rfl : ip = jp := some.inj hjp
    exact hself
  · cases hf
  · cases hu
  · cases hl
  · cases hm
  · rw [ht]
    rfl

/-- A new turn begins. -/
theorem bump (ht : G t = .locked ip) : Inv s₀ { s with turn := update s.turn ip (s.turn ip + 1) }
      (update G t (.turned ip)) := by
  have hheld : (G t).held = some ip := by rw [ht]; rfl
  have hmono : ∀ jp, s.turn jp ≤ update s.turn ip (s.turn ip + 1) jp := fun jp => by
    by_cases hjp : jp = ip
    · rw [hjp, update_self]
      omega
    · rw [update_of_ne hjp]
  have h' : Inv s₀ { s with turn := update s.turn ip (s.turn ip + 1) } G :=
    { h with
      turn_le := fun c hc => (h.turn_le c hc).trans (hmono _)
      turn_lt := fun u jp hu c hc hip => (h.turn_lt u jp hu c hc hip).trans_le (hmono _) }
  refine h'.view (fun jp hjp => ?_) (fun _ hf => ?_) (fun jp hjp c hc hip => ?_)
    (fun _ _ _ hl => ?_) (fun _ _ _ _ hm => ?_) fun f => ?_
  · obtain rfl : ip = jp := some.inj hjp
    exact h.lock t ip hheld
  · cases hf
  · obtain rfl : ip = jp := some.inj hjp
    show c.turn < update s.turn ip (s.turn ip + 1) ip
    rw [update_self, ← hip]
    exact Nat.lt_succ_of_le (h.turn_le c hc)
  · cases hl
  · cases hm
  · rw [ht]
    rfl

/-- A process loads an offset. -/
theorem load (ht : G t = .turned ip) (hip : (s₀.ftable f).ip = ip) :
    Inv s₀ s (update G t (.loaded f ip (s.fs.ftable f).off)) := by
  have hheld : (G t).held = some ip := by rw [ht]; rfl
  have hunused : (G t).unused = some ip := by rw [ht]; rfl
  refine h.view (fun jp hjp => ?_) (fun f' hf => ?_) (fun jp hjp => ?_) (fun f' jp o hl => ?_)
    (fun _ _ _ _ hm => ?_) fun f => ?_
  · obtain rfl : ip = jp := some.inj hjp
    exact h.lock t ip hheld
  · obtain rfl : f = f' := some.inj hf
    exact congrArg some hip.symm
  · obtain rfl : ip = jp := some.inj hjp
    exact h.turn_lt t ip hunused
  · cases hl
    rfl
  · cases hm
  · rw [ht]
    rfl

/-- A process moves `r` bytes. -/
theorem move (ht : G t = .loaded f ip off) (hx : Keeps s.fs x) (hr : 0 < r)
    (hlt : off.toNat + r < 2 ^ 32) :
    Inv s₀ { s with fs := x, chunks := ⟨f, s.turn ip, off.toNat, r⟩ :: s.chunks }
      (update G t (.moved f ip off r)) := by
  have hoff := h.loaded_eq ht
  have hheld : (G t).held = some ip := by rw [ht]; rfl
  have hunused : (G t).unused = some ip := by rw [ht]; rfl
  have hfile : (G t).file = some f := by rw [ht]; rfl
  have hip : (s₀.ftable f).ip = ip := some.inj ((h.place t f hfile).symm.trans hheld)
  have hothers : ∀ u, u ≠ t → (G u).file ≠ some f := fun u hne hu =>
    hne (h.eq_of_file (h.place t f hfile) hu)
  have hk := h.keep hx
  set s' : Traced τ := { s with fs := x, chunks := ⟨f, s.turn ip, off.toNat, r⟩ :: s.chunks }
  have hself : s'.chunksOf f = ⟨f, s.turn ip, off.toNat, r⟩ :: s.chunksOf f := by
    show List.filter _ (_ :: s.chunks) = _
    rw [List.filter_cons_of_pos (by simp)]
    rfl
  have hne : ∀ f', f' ≠ f → s'.chunksOf f' = s.chunksOf f' := fun f' hf' => by
    show List.filter _ (_ :: s.chunks) = _
    rw [List.filter_cons_of_neg (by simpa using hf'.symm)]
    rfl
  have hnew : ∀ c ∈ s'.chunks, c = ⟨f, s.turn ip, off.toNat, r⟩ ∨ c ∈ s.chunks := fun c hc =>
    List.mem_cons.mp hc
  refine ⟨fun u jp hu => ?_, fun u f' hu => ?_, hk.file, fun c hc => ?_, fun u jp hu c hc hjp => ?_,
    fun f' => ?_, fun f' => ?_, fun u f' jp o hu => ?_, fun u f' jp o r' hu => ?_, fun f' hf => ?_⟩
  · rcases update_cases hu with ⟨rfl, hg⟩ | ⟨-, hu⟩
    · exact hk.lock u jp (hheld.trans hg)
    · exact hk.lock u jp hu
  · rcases update_cases hu with ⟨rfl, hg⟩ | ⟨hut, hu⟩
    · rw [update_self]
      obtain rfl : f = f' := some.inj hg
      exact congrArg some hip.symm
    · rw [update_of_ne hut]
      exact h.place u f' hu
  · rcases hnew c hc with rfl | hc
    · rw [hip]
    · exact h.turn_le c hc
  · obtain ⟨rfl, ⟨⟩⟩ | ⟨hut, hu⟩ := update_cases hu
    have hujp : (G u).held = some jp := by
      cases hg : G u with
      | turned _ => rw [hg] at hu; exact hu
      | loaded _ _ _ => rw [hg] at hu; exact hu
      | out => rw [hg] at hu; cases hu
      | locked _ => rw [hg] at hu; cases hu
      | moved _ _ _ _ => rw [hg] at hu; cases hu
    rcases hnew c hc with rfl | hc
    · obtain rfl : ip = jp := hip.symm.trans hjp
      exact absurd (h.eq_of_held hheld hujp) hut
    · exact h.turn_lt u jp hu c hc hjp
  · rcases eq_or_ne f' f with rfl | hf'
    · rw [hself]
      refine .cons (fun d hd => ?_) (h.sorted f')
      have hmem : d ∈ s.chunks ∧ d.file = f' := by simpa [Traced.chunksOf] using hd
      refine h.turn_lt t ip hunused d hmem.1 ?_
      rw [hmem.2, hip]
    · rw [hne f' hf']
      exact h.sorted f'
  · rcases eq_or_ne f' f with rfl | hf'
    · rw [hself]
      exact ⟨hoff, h.consecutive f'⟩
    · rw [hne f' hf']
      exact h.consecutive f'
  · obtain ⟨rfl, ⟨⟩⟩ | ⟨hut, hu⟩ := update_cases (f := id) hu
    exact hk.loaded u f' jp o hu
  · rcases eq_or_ne u t with rfl | hut
    · rw [update_self] at hu
      cases hu
      refine ⟨hk.loaded u f ip off ht, hlt, ?_⟩
      rw [hself]
      simp only [total, List.map_cons, List.sum_cons] at hoff ⊢
      omega
    · rw [update_of_ne hut] at hu
      have hf' : f' ≠ f := by
        rintro rfl
        exact hothers u hut (by rw [hu]; rfl)
      rw [hne f' hf']
      exact hk.moved u f' jp o r' hu
  · have hf' : f' ≠ f := by
      rintro rfl
      have := hf t
      rw [update_self] at this
      simp only [View.owes, if_true] at this
      omega
    rw [hne f' hf']
    refine hk.settled f' fun u => ?_
    rcases eq_or_ne u t with rfl | hut
    · rw [ht]
      rfl
    · have := hf u
      rwa [update_of_ne hut] at this

/-- A process advances the offset by what it has moved. -/
theorem store (ht : G t = .moved f ip off r) :
    Inv s₀ { s with fs := s.fs.setFile f { s.fs.ftable f with off := off + UInt32.ofNat r } }
      (update G t (.locked ip)) := by
  obtain ⟨-, hlt, hsum⟩ := h.moved t f ip off r ht
  have hheld : (G t).held = some ip := by rw [ht]; rfl
  have hfile : (G t).file = some f := by rw [ht]; rfl
  have hothers : ∀ u, u ≠ t → (G u).file ≠ some f := fun u hne hu =>
    hne (h.eq_of_file (h.place t f hfile) hu)
  have hadd : (off + UInt32.ofNat r).toNat = off.toNat + r := by
    rw [UInt32.toNat_add, UInt32.toNat_ofNat', Nat.mod_eq_of_lt (a := r) (by omega),
      Nat.mod_eq_of_lt hlt]
  set x := s.fs.setFile f { s.fs.ftable f with off := off + UInt32.ofNat r }
  have hself : x.ftable f = { s.fs.ftable f with off := off + UInt32.ofNat r } :=
    update_self ..
  have hne : ∀ f', f' ≠ f → x.ftable f' = s.fs.ftable f' := fun f' hf' =>
    update_of_ne hf' ..
  refine ⟨fun u jp hu => ?_, fun u f' hu => ?_, fun f' => ?_, h.turn_le, fun u jp hu => ?_,
    h.sorted, h.consecutive, fun u f' jp o hu => ?_, fun u f' jp o r' hu => ?_, fun f' hf => ?_⟩
  · rcases update_cases hu with ⟨rfl, hg⟩ | ⟨-, hu⟩
    · exact h.lock u jp (hheld.trans hg)
    · exact h.lock u jp hu
  · obtain ⟨rfl, ⟨⟩⟩ | ⟨hut, hu⟩ := update_cases hu
    rw [update_of_ne hut]
    exact h.place u f' hu
  · rcases eq_or_ne f' f with rfl | hf'
    · rw [hself, h.file f']
    · rw [hne f' hf']
      exact h.file f'
  · obtain ⟨rfl, ⟨⟩⟩ | ⟨hut, hu⟩ := update_cases hu
    exact h.turn_lt u jp hu
  · obtain ⟨rfl, ⟨⟩⟩ | ⟨hut, hu⟩ := update_cases (f := id) hu
    have hf' : f' ≠ f := by
      rintro rfl
      exact hothers u hut (congrArg View.file hu)
    rw [hne f' hf']
    exact h.loaded u f' jp o hu
  · obtain ⟨rfl, ⟨⟩⟩ | ⟨hut, hu⟩ := update_cases (f := id) hu
    have hf' : f' ≠ f := by
      rintro rfl
      exact hothers u hut (congrArg View.file hu)
    rw [hne f' hf']
    exact h.moved u f' jp o r' hu
  · rcases eq_or_ne f' f with rfl | hf'
    · rw [hself]
      exact hadd.trans hsum
    · rw [hne f' hf']
      refine h.settled f' fun u => ?_
      rcases eq_or_ne u t with rfl | hut
      · rw [ht]
        exact if_neg hf'.symm
      · have := hf u
        rwa [update_of_ne hut] at this

/-- A process gives the lock back. -/
theorem release (hheld : (G t).held = some ip) (howes : ∀ f, (G t).owes f = 0)
    (hx : x.ftable = s.fs.ftable)
    (hother : ∀ jp, jp ≠ ip → (x.itable jp).lock = (s.fs.itable jp).lock) :
    Inv s₀ { s with fs := x } (update G t .out) := by
  have h' : Inv s₀ s (update G t .out) := by
    refine h.view (fun _ hjp => ?_) (fun _ hf => ?_) (fun _ hu => ?_) (fun _ _ _ hl => ?_)
      (fun _ _ _ _ hm => ?_) howes
    · cases hjp
    · cases hf
    · cases hu
    · cases hl
    · cases hm
  refine h'.change hx fun u jp hu => ?_
  obtain ⟨rfl, ⟨⟩⟩ | ⟨hne, hu⟩ := update_cases hu
  have hjp : jp ≠ ip := by
    rintro rfl
    exact hne (h.eq_of_held hheld hu)
  rw [hother jp hjp]
  exact h.lock u jp hu

end Inv

/-! ## The calls keep it -/

/-- `ilock` takes a free lock. -/
theorem ilock_atomic (sb : Superblock) (ip : Slot) : ∃ act, (ilock sb ip : M τ Unit) = .atomic act ∧
    ∀ t s b s' w, act t s = .done b s' w → (s.itable ip).lock = none ∧
      ∃ y : Inode τ, y.lock = some t ∧ s' = s.setInode ip y := by
  refine ⟨_, rfl, fun t s b s' w hdone => ?_⟩
  cases hlock : (s.itable ip).lock with
  | some u =>
    simp only [hlock] at hdone
    split_ifs at hdone
  | none =>
    simp only [hlock] at hdone
    split_ifs at hdone with href hvalid htype
    · cases hdone
      exact ⟨rfl, _, rfl, rfl⟩
    · cases hdone
      exact ⟨rfl, _, rfl, rfl⟩

/-- `iunlock` gives back a lock of its own. -/
theorem iunlock_atomic [DecidableEq τ] (ip : Slot) : ∃ act, (iunlock ip : M τ Unit) = .atomic act ∧
    ∀ t s b s' w, act t s = .done b s' w → (s.itable ip).lock = some t ∧
      ∃ y : Inode τ, s' = s.setInode ip y := by
  refine ⟨_, rfl, fun t s b s' w hdone => ?_⟩
  simp only at hdone
  split_ifs at hdone with hbad
  cases hdone
  exact ⟨not_not.mp fun h => hbad (.inl h), _, rfl⟩

section Safe

variable [DecidableEq τ] {s₀ : State τ} {g : View} {f : FileId}

/-- The logic of the invariant. -/
abbrev logic (s₀ : State τ) : Logic τ Chan Halt (Traced τ) (τ → View) View :=
  localLogic Chan Halt (Inv s₀)

/-- An action of the file system that leaves open files and locks alone. -/
theorem safe_keep {c : τ → F τ α} {Q : α → Prop} (hQ : ∀ s G, Inv s₀ s G →
    Ends (c t s.fs) (fun a x => Keeps s.fs x ∧ Q a) fun _ => True) :
    Safe (logic s₀) t (fun a g' => Q a ∧ g' = g) (lift (.cmd c)) g := by
  refine safe_act fun s G hI hG a s' w hdone => ?_
  obtain ⟨x, hx, rfl⟩ := Outcome.map_eq_done hdone
  have hx' : toOutcome [] (c t s.fs) = .done a x w := hx
  have hend := hQ s G hI
  cases hc : c t s.fs with
  | error e =>
    rw [hc] at hx'
    cases hx'
  | ok y =>
    rw [hc] at hx' hend
    cases hx'
    refine ⟨g, ?_, hend.2, rfl⟩
    rw [← hG, update_eq_self]
    exact hI.keep hend.1

theorem safe_beginOp : Safe (logic s₀) t (fun _ g' => g' = g) (lift beginOp) g := by
  refine Safe.mono (Q := fun _ g' => True ∧ g' = g) ?_ fun _ _ h => h.2
  refine safe_keep fun s G _ => ?_
  exact ⟨⟨rfl, fun _ => rfl⟩, trivial⟩

theorem safe_endOp : Safe (logic s₀) t (fun _ g' => g' = g) (lift endOp) g := by
  refine Safe.mono (Q := fun _ g' => True ∧ g' = g) ?_ fun _ _ h => h.2
  refine safe_keep fun s G _ => ?_
  exact ⟨⟨rfl, fun _ => rfl⟩, trivial⟩

/-- Which inode an open file is on does not change. -/
theorem safe_file : Safe (logic s₀) t (fun x g' => x.ip = (s₀.ftable f).ip ∧ g' = g)
    (lift (file f)) g := by
  refine safe_keep (Q := fun x : File => x.ip = (s₀.ftable f).ip) fun s G hI => ?_
  refine ⟨.refl s.fs, ?_⟩
  rw [hI.file f]

theorem safe_lock : Safe (logic s₀) t (fun _ g => g = .turned ip) (lock sb ip) .out := by
  refine Safe.bind (Q := fun _ g => g = .locked ip) ?_ fun _ g hg => ?_
  · obtain ⟨act, hact, hinv⟩ := ilock_atomic sb ip
    rw [hact]
    refine safe_act fun s G hI hG a s' w hdone => ?_
    obtain ⟨x, hx, rfl⟩ := Outcome.map_eq_done hdone
    obtain ⟨hfree, y, hy, rfl⟩ := hinv t s.fs a x w hx
    refine ⟨.locked ip, hI.acquire hG hfree rfl ?_ fun jp hjp => ?_, rfl⟩
    · show (update s.fs.itable ip y ip).lock = some t
      rw [update_self, hy]
    · show (update s.fs.itable ip y jp).lock = _
      rw [update_of_ne hjp]
  · subst hg
    refine safe_act fun s G hI hG a s' w hdone => ?_
    cases hdone
    exact ⟨.turned ip, hI.bump hG, rfl⟩

theorem safe_iunlock (hheld : g.held = some ip) (howes : ∀ f, g.owes f = 0) :
    Safe (logic s₀) t (fun _ g => g = .out) (lift (iunlock ip)) g := by
  obtain ⟨act, hact, hinv⟩ := iunlock_atomic (τ := τ) ip
  rw [hact]
  refine safe_act fun s G hI hG a s' w hdone => ?_
  obtain ⟨x, hx, rfl⟩ := Outcome.map_eq_done hdone
  obtain ⟨-, y, rfl⟩ := hinv t s.fs a x w hx
  subst hG
  refine ⟨.out, hI.release hheld howes rfl fun jp hjp => ?_, rfl⟩
  show (update s.fs.itable ip y jp).lock = _
  rw [update_of_ne hjp]

theorem safe_transfer {io : τ → ℕ → F τ ℤ} (hio : Transfers (io t)) (hip : (s₀.ftable f).ip = ip) :
    Safe (logic s₀) t (fun _ g => g.held = some ip ∧ ∀ f, g.owes f = 0) (transfer f ip io)
      (.turned ip) := by
  -- the load of the offset
  refine Safe.bind (Q := fun off g => g = .loaded f ip off) ?_ fun off g hg => ?_
  · refine safe_act fun s G hI hG a s' w hdone => ?_
    cases hdone
    exact ⟨_, hI.load hG hip, rfl⟩
  subst hg
  -- the transfer
  refine Safe.bind (Q := fun r g => if 0 < r then g = .moved f ip off r.toNat
    else g = .loaded f ip off) ?_ fun r g hg => ?_
  · refine safe_act fun s G hI hG a s' w hdone => ?_
    have hend := hio off.toNat off.toNat_lt s.fs
    cases hc : io t off.toNat s.fs with
    | error e =>
      simp only [hc] at hdone
      cases hdone
    | ok y =>
      rw [hc] at hend
      simp only [hc] at hdone
      cases hdone
      obtain ⟨hkeep, hlt⟩ := hend
      by_cases hr : 0 < y.1
      · refine ⟨.moved f ip off y.1.toNat, ?_, ?_⟩
        · rw [record, if_pos hr]
          exact hI.move hG hkeep (by omega) (hlt hr)
        · show ite _ _ _
          rw [if_pos hr]
      · refine ⟨.loaded f ip off, ?_, ?_⟩
        · rw [record, if_neg hr, ← hG, update_eq_self]
          exact hI.keep hkeep
        · show ite _ _ _
          rw [if_neg hr]
  by_cases hr : 0 < r
  · rw [if_pos hr] at hg ⊢
    subst hg
    -- the new offset: nobody has changed the old one in between
    refine Safe.bind (Q := fun off' g => off' = off ∧ g = .moved f ip off r.toNat) ?_
      fun off' g hg => ?_
    · refine safe_act fun s G hI hG a s' w hdone => ?_
      cases hdone
      refine ⟨_, ?_, (hI.moved t f ip off _ hG).1, rfl⟩
      rw [← hG, update_eq_self]
      exact hI
    · obtain ⟨rfl, rfl⟩ := hg
      refine safe_act fun s G hI hG a s' w hdone => ?_
      cases hdone
      exact ⟨.locked ip, hI.store hG, rfl, fun _ => rfl⟩
  · rw [if_neg hr] at hg ⊢
    subst hg
    exact ⟨rfl, fun _ => rfl⟩

theorem safe_fileread (dst : Dest) (n : ℤ) (dev : Option ℤ) :
    Safe (logic s₀) t (fun _ g => g = .out) (fileread sb f dst n dev) .out := by
  refine safe_file.bind fun x g hx => ?_
  obtain ⟨hip, rfl⟩ := hx
  by_cases hbad : x.readable = false ∨ n < 0
  · rw [if_pos hbad]
    rfl
  · rw [if_neg hbad]
    cases x.type with
    | device => rfl
    | none => exact safe_act fun s G hI hG a s' w hdone => by cases hdone
    | inode =>
      refine safe_lock.bind fun _ g hg => ?_
      subst hg
      refine (safe_transfer (readi_transfers dst n.toNat) hip.symm).bind fun r g hg => ?_
      exact (safe_iunlock hg.1 hg.2).bind fun _ g hg => hg

theorem safe_filewriteOne (src : Source) (n : ℕ) (hip : (s₀.ftable f).ip = ip) :
    Safe (logic s₀) t (fun _ g => g = .out) (filewriteOne sb f ip src n) .out := by
  refine safe_beginOp.bind fun _ g hg => ?_
  subst hg
  refine safe_lock.bind fun _ g hg => ?_
  subst hg
  refine (safe_transfer (writei_transfers src n) hip).bind fun r g hg => ?_
  refine (safe_iunlock hg.1 hg.2).bind fun _ g hg => ?_
  exact safe_endOp.bind fun _ g' hg' => hg'.trans hg

theorem safe_filewriteFrom (src : Source) (n fuel i : ℕ) (hip : (s₀.ftable f).ip = ip) :
    Safe (logic s₀) t (fun _ g => g = .out) (filewriteFrom sb f ip src n fuel i) .out := by
  induction fuel generalizing i with
  | zero => rfl
  | succ fuel ih =>
    rw [filewriteFrom]
    by_cases hi : i < n
    · rw [if_pos hi]
      refine (safe_filewriteOne _ _ hip).bind fun r g hg => ?_
      subst hg
      by_cases hr : r = (min (n - i) filewriteMax : ℕ)
      · rw [if_pos hr]
        exact ih _
      · rw [if_neg hr]
        rfl
    · rw [if_neg hi]
      rfl

theorem safe_filewrite (src : Source) (n : ℤ) (dev : Option ℤ) :
    Safe (logic s₀) t (fun _ g => g = .out) (filewrite sb f src n dev) .out := by
  refine safe_file.bind fun x g hx => ?_
  obtain ⟨hip, rfl⟩ := hx
  by_cases hbad : x.writable = false ∨ n < 0
  · rw [if_pos hbad]
    rfl
  · rw [if_neg hbad]
    cases x.type with
    | device => rfl
    | none => exact safe_act fun s G hI hG a s' w hdone => by cases hdone
    | inode => exact (safe_filewriteFrom src _ _ 0 hip.symm).bind fun i g hg => hg

/-- **Every call keeps the invariant.** -/
theorem safe_call (c : Call) :
    Safe (logic s₀) t (fun _ g => g = .out) ((system sb : System τ _ _ _).code c) .out := by
  cases c with
  | read f dst n dev => exact (safe_fileread dst n dev).bind fun _ g hg => hg
  | write f src n dev => exact (safe_filewrite src n dev).bind fun _ g hg => hg

end Safe

/-- The invariant at the start. -/
theorem inv_start (s₀ : State τ) : Inv s₀ (.start s₀) fun _ => .out where
  lock _ _ ht := by cases ht
  place _ _ ht := by cases ht
  file _ := rfl
  turn_le _ hc := absurd hc List.not_mem_nil
  turn_lt _ _ ht := by cases ht
  sorted _ := .nil
  consecutive _ := trivial
  loaded _ _ _ _ ht := by cases ht
  moved _ _ _ _ _ ht := by cases ht
  settled _ _ := rfl

end Shared

/-- **Shared offsets.** Any number of processes read and write open files in any interleaving. The
chunks of each file are consecutive, in the order in which the lock of its inode was taken, and so
no two of them overlap; and when nobody has that lock, the offset is where the first chunk started
plus all that was moved. -/
theorem shared_offset [DecidableEq τ] {s₀ : State τ} {t₀ : τ}
    {cfg : Config τ Chan Halt (Traced τ)}
    (hr : Reachable (Shared.system sb) ((Shared.system sb).powerOn (.start s₀) t₀) cfg)
    (f : FileId) :
    (cfg.shared.chunksOf f).Pairwise (fun c d => d.turn < c.turn) ∧
    Consecutive (s₀.ftable f).off.toNat (cfg.shared.chunksOf f) ∧
    (cfg.shared.chunksOf f).Pairwise (fun c d => ∀ q, c.Covers q → ¬ d.Covers q) ∧
    ((cfg.shared.fs.itable (s₀.ftable f).ip).lock = none →
      (cfg.shared.fs.ftable f).off.toNat =
        (s₀.ftable f).off.toNat + total (cfg.shared.chunksOf f)) := by
  have hcall : ∀ (t : τ) (c : Shared.Call) (s : Traced τ), True → ∀ g : Shared.View, g = .out →
      Safe (Shared.logic s₀) t (fun _ g' => g' = .out) ((Shared.system sb).code c) g := by
    rintro t c s - g rfl
    exact Shared.safe_call c
  obtain ⟨G, hI⟩ := inv_of_reachable (S := Shared.system sb) (fun h => h) hcall
    (Shared.inv_start s₀) (fun _ => rfl) rfl hr
  refine ⟨hI.sorted f, hI.consecutive f, (hI.consecutive f).disjoint, fun hfree => ?_⟩
  refine hI.settled f fun t => ?_
  by_contra howes
  have hlock := hI.lock t _ (hI.place t f (Shared.Inv.file_of_owes howes))
  rw [hfree] at hlock
  cases hlock

/-- Two processes that read the file of the small file system, the second of which looks at the
open file while the first has the lock. -/
def sharedReads : List (Move Bool Shared.Call) :=
  .call true (.read Small.fd (fun _ _ => true) 2 none) :: List.replicate 4 (.act true) ++
    .call false (.read Small.fd (fun _ _ => true) 4 none) :: .act false ::
      List.replicate 4 (.act true) ++ List.replicate 7 (.act false)

instance (t : Bool) (c : (Shared.system (τ := Bool) sb).Call) (s : Traced Bool) :
    Decidable ((Shared.system sb).may t c s) :=
  inferInstanceAs (Decidable True)

/-- The first reads two bytes, and the second the other three. -/
theorem shared_offset_reads : ∃ cfg, Reachable (Shared.system Small.super)
    ((Shared.system Small.super).powerOn (.start (Small.state true)) true) cfg ∧
    cfg.shared.chunksOf Small.fd = [⟨Small.fd, 2, 2, 3⟩, ⟨Small.fd, 1, 0, 2⟩] ∧
    Consecutive 0 (cfg.shared.chunksOf Small.fd) := by
  have hrun : ((Shared.system Small.super).play sharedReads
      ((Shared.system Small.super).powerOn (.start (Small.state true)) true)).any
      (fun cfg => cfg.shared.chunksOf Small.fd = [⟨Small.fd, 2, 2, 3⟩, ⟨Small.fd, 1, 0, 2⟩]) =
        true := by
    decide +kernel
  obtain ⟨cfg, hr, hchunks⟩ := exists_of_play _ hrun
  exact ⟨cfg, hr, hchunks, (shared_offset hr Small.fd).2.1⟩

end Fs

end TrinityXv6
