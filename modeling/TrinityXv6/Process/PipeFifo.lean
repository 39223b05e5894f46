import TrinityXv6.Process.Pipe

/-!
# A pipe is a queue

Bytes leave a pipe in the order in which they entered it. The counters `nread` and `nwrite` are
32 bits wide and wrap; their difference modulo `2 ^ 32` is the number of bytes in the ring, which is
at most `PIPESIZE`, and since `PIPESIZE` divides `2 ^ 32` the positions in the ring go on across the
wrap.

## Main definitions

* `Process.Pipe.ring` — the bytes in a pipe, oldest first
* `Process.Pipe.accepted`, `delivered` — the bytes that have entered and left, from the history
* `Process.Pipe.sent`, `got` — those of the current call of a process

## Main results

* `Process.Pipe.pipe_fifo` — the bytes that left, followed by the bytes in the ring, are the bytes
  that entered; the ring is never over-full; and a call that returns `k` moved the `k` bytes it says
-/

namespace TrinityXv6

namespace Process

namespace Pipe

open Threads
open List
open Function (update update_self update_of_ne update_eq_self)

variable {n : ℕ}

/-! ## The ring -/

/-- The number of bytes in the ring. -/
def size (x : Pipe) : ℕ := (x.nwrite - x.nread).toNat

/-- The bytes in the ring, oldest first. -/
def ring (x : Pipe) : List UInt8 :=
  (List.range x.size).map fun k => x.data ((x.nread.toNat + k) % 512)

section Ring

variable {x : Pipe}

theorem size_def (x : Pipe) : x.size = (2 ^ 32 - x.nread.toNat + x.nwrite.toNat) % 2 ^ 32 := by
  rw [size, UInt32.toNat_sub]

/-- The counters count: `nwrite` is `nread` and the size of the ring, modulo `2 ^ 32`. -/
theorem nwrite_toNat (x : Pipe) : x.nwrite.toNat = (x.nread.toNat + x.size) % 2 ^ 32 := by
  have hr := x.nread.toNat_lt
  have hw := x.nwrite.toNat_lt
  rw [size_def]
  omega

theorem nwrite_mod (x : Pipe) : (x.nwrite % pipeSize).toNat = (x.nread.toNat + x.size) % 512 := by
  rw [UInt32.toNat_mod, nwrite_toNat]
  show (x.nread.toNat + x.size) % 2 ^ 32 % 512 = _
  omega

theorem front_eq (x : Pipe) : x.front = x.data (x.nread.toNat % 512) := by
  rw [front, UInt32.toNat_mod]
  rfl

theorem size_ne_of_not_full (h : x.full = false) : x.size ≠ 512 := by
  intro hs
  refine of_decide_eq_false h ?_
  rw [← UInt32.toNat_inj, nwrite_toNat, hs, UInt32.toNat_add]
  rfl

theorem size_ne_zero_of_not_empty (h : x.empty = false) : x.size ≠ 0 := by
  intro hs
  have hne : x.nread ≠ x.nwrite := of_decide_eq_false h
  refine hne ?_
  rw [← UInt32.toNat_inj, nwrite_toNat, hs]
  have := x.nread.toNat_lt
  omega

theorem size_push (h : x.size < 512) (ch : UInt8) : (x.push ch).size = x.size + 1 := by
  have hr := x.nread.toNat_lt
  rw [size_def, push, UInt32.toNat_add, nwrite_toNat]
  show (2 ^ 32 - x.nread.toNat + ((x.nread.toNat + x.size) % 2 ^ 32 + 1) % 2 ^ 32) % 2 ^ 32 = _
  omega

theorem size_pop (h : x.size ≠ 0) : x.pop.size + 1 = x.size := by
  have hs : x.size < 2 ^ 32 := (x.nwrite - x.nread).toNat_lt
  rw [size_def x.pop, pop, UInt32.toNat_add]
  show (2 ^ 32 - (x.nread.toNat + 1) % 2 ^ 32 + x.nwrite.toNat) % 2 ^ 32 + 1 = x.size
  rw [nwrite_toNat]
  omega

/-- A byte that is added comes last. -/
theorem ring_push (h : x.size < 512) (ch : UInt8) : (x.push ch).ring = x.ring ++ [ch] := by
  have hcell : ∀ k, k < x.size → (x.nread.toNat + k) % 512 ≠ (x.nwrite % pipeSize).toNat := by
    intro k hk
    rw [nwrite_mod]
    omega
  rw [ring, size_push h, range_succ, map_append, map_singleton]
  congr 1
  · refine map_congr_left fun k hk => ?_
    exact update_of_ne (hcell k (mem_range.mp hk)) _ _
  · show [update x.data (x.nwrite % pipeSize).toNat ch ((x.nread.toNat + x.size) % 512)] = _
    rw [nwrite_mod, update_self]

/-- A byte that is taken comes first. -/
theorem ring_pop (h : x.size ≠ 0) : x.ring = x.front :: x.pop.ring := by
  have hshift : ∀ k, ((x.pop).nread.toNat + k) % 512 = (x.nread.toNat + (k + 1)) % 512 := by
    intro k
    show ((x.nread + 1).toNat + k) % 512 = _
    rw [UInt32.toNat_add]
    show ((x.nread.toNat + 1) % 2 ^ 32 + k) % 512 = _
    omega
  rw [ring, ← size_pop h, range_succ_eq_map, map_cons, map_map, front_eq]
  refine congrArg₂ cons rfl (map_congr_left fun k _ => ?_)
  rw [hshift]
  rfl

end Ring

/-! ## What the history says -/

/-- The bytes writers have added, in order. -/
def accepted : List (Event n (Chan n)) → List UInt8
  | .accepted _ b :: h => accepted h ++ [b]
  | _ :: h => accepted h
  | [] => []

/-- The bytes readers have been given, in order. -/
def delivered : List (Event n (Chan n)) → List UInt8
  | .delivered _ _ b :: h => delivered h ++ [b]
  | _ :: h => delivered h
  | [] => []

section Calls

variable (p : Fin n)

/-- The buffer of the last call of `pipewrite` by `p`. -/
def source : List (Event n (Chan n)) → ℕ → Option UInt8
  | .writeCall q src :: h => if q = p then src else source h
  | _ :: h => source h
  | [] => fun _ => none

/-- The bytes `p` has added since its last call of `pipewrite`. -/
def sent : List (Event n (Chan n)) → List UInt8
  | .writeCall q _ :: h => if q = p then [] else sent h
  | .accepted q b :: h => if q = p then sent h ++ [b] else sent h
  | _ :: h => sent h
  | [] => []

/-- The bytes the `piperead` that `p` is in has given it, with their places in its buffer. -/
def got : List (Event n (Chan n)) → List (ℕ × UInt8)
  | .readCall q :: h => if q = p then [] else got h
  | .delivered q i b :: h => if q = p then got h ++ [(i, b)] else got h
  | .readRet q _ :: h => if q = p then [] else got h
  | _ :: h => got h
  | [] => []

end Calls

/-- A `pipewrite` that returned `k` added the first `k` bytes of its buffer. -/
def WroteOk (p : Fin n) (k : ℤ) (h : List (Event n (Chan n))) : Prop :=
  0 ≤ k → (sent p h).map some = (List.range k.toNat).map (source p h)

/-- A `piperead` that returned `k` was given the `k` bytes that left the pipe last, one after the
other, at the first `k` places of its buffer. -/
def ReadOk (p : Fin n) (k : ℤ) (h : List (Event n (Chan n))) : Prop :=
  0 ≤ k → (got p h).map Prod.fst = List.range k.toNat ∧ (got p h).map Prod.snd <:+ delivered h

/-- Every call that has returned did what it says. -/
def HistOk : List (Event n (Chan n)) → Prop
  | .writeRet p k :: h => WroteOk p k h ∧ HistOk h
  | .readRet p k :: h => ReadOk p k h ∧ HistOk h
  | _ :: h => HistOk h
  | [] => True

theorem HistOk.tail {e : Event n (Chan n)} {h : List (Event n (Chan n))} (hh : HistOk (e :: h)) :
    HistOk h := by
  cases e with
  | writeRet p k => exact hh.2
  | readRet p k => exact hh.2
  | _ => exact hh

theorem HistOk.of_append {h₁ h₂ : List (Event n (Chan n))} (hh : HistOk (h₁ ++ h₂)) :
    HistOk h₂ := by
  induction h₁ with
  | nil => exact hh
  | cons e h₁ ih => exact ih hh.tail

namespace Fifo

/-! ## The invariant -/

/-- What a process knows between two actions: the pipe if it holds the lock, and what the history
says about its current call. -/
structure View where
  pi : Option Pipe
  src : ℕ → Option UInt8
  sent : List UInt8
  got : List (ℕ × UInt8)

/-- The lock that goes with a view. -/
def View.held (v : View) : Option Lock := v.pi.map fun _ => .pi

/-- Between two calls. -/
def Idle (v : View) : Prop := v.pi = none ∧ v.got = []

/-- The pipe is the queue the history says it is. -/
structure Inv (s : Kernel n) (G : Tid n → View) : Prop where
  lock : LockOk s fun t => (G t).held
  pi : ∀ t x, (G t).pi = some x → s.data.pi = x
  fifo : delivered s.hist ++ s.data.pi.ring = accepted s.hist
  size : s.data.pi.size ≤ 512
  src : ∀ p, source p s.hist = (G (.inl p)).src
  sent : ∀ p, sent p s.hist = (G (.inl p)).sent
  got : ∀ p, got p s.hist = (G (.inl p)).got
  tail : ∀ p x, (G (.inl p)).pi = some x → (Pipe.got p s.hist).map Prod.snd <:+ delivered s.hist
  hist : HistOk s.hist

variable {s s' : Kernel n} {G : Tid n → View} {t : Tid n} {p q : Fin n} {x : Pipe} {g g' : View}
  {src : ℕ → Option UInt8} {l : List UInt8} {l' : List (ℕ × UInt8)} {dst : ℕ → Bool} {k : ℤ}

/-- The value of process `p` alone follows. -/
theorem follows {β : Type} (f : Fin n → β) (b : β) (q : Fin n) :
    (if p = q then b else f q) = if q = p then b else f q := by
  simp only [eq_comm]

/-- No value changes. -/
theorem follows_same {β : Type} {f : Fin n → β} {b : β} (h : f p = b) (q : Fin n) :
    f q = if q = p then b else f q := by
  split_ifs with hq
  · rw [hq, h]
  · rfl

/-- Events that neither start a call, nor move a byte, nor end a read. -/
def Quiet : Event n (Chan n) → Prop
  | .writeCall .. | .accepted .. | .readCall .. | .delivered .. | .readRet .. => False
  | _ => True

theorem Quiet.same {e : Event n (Chan n)} (he : Quiet e) (h : List (Event n (Chan n))) :
    accepted (e :: h) = accepted h ∧ delivered (e :: h) = delivered h ∧
      (∀ p, source p (e :: h) = source p h) ∧ (∀ p, Pipe.sent p (e :: h) = Pipe.sent p h) ∧
      ∀ p, Pipe.got p (e :: h) = Pipe.got p h := by
  cases e <;> first | exact he.elim | exact ⟨rfl, rfl, fun _ => rfl, fun _ => rfl, fun _ => rfl⟩

namespace Inv

/-- A step that changes neither the pipe nor the locks. -/
theorem congr (h : Inv s G) (hlock : s'.lock = s.lock) (hpi : s'.data.pi = s.data.pi)
    (hhist : s'.hist = s.hist) : Inv s' G := by
  have hl : LockOk s' fun t => (G t).held := by
    intro l t
    rw [hlock]
    exact h.lock l t
  exact ⟨hl, by rw [hpi]; exact h.pi, by rw [hpi, hhist]; exact h.fifo,
    by rw [hpi]; exact h.size, by rw [hhist]; exact h.src, by rw [hhist]; exact h.sent,
    by rw [hhist]; exact h.got, by rw [hhist]; exact h.tail, by rw [hhist]; exact h.hist⟩

/-- A step that records a quiet event. -/
theorem note (h : Inv s G) {e : Event n (Chan n)} (he : Quiet e) (hok : HistOk (e :: s.hist)) :
    Inv (s.note e) G := by
  obtain ⟨h₁, h₂, h₃, h₄, h₅⟩ := he.same s.hist
  refine ⟨h.lock, h.pi, ?_, h.size, fun p => ?_, fun p => ?_, fun p => ?_, fun p x hx => ?_, hok⟩
  · rw [State.note_hist, h₁, h₂]
    exact h.fifo
  · rw [State.note_hist, h₃]
    exact h.src p
  · rw [State.note_hist, h₄]
    exact h.sent p
  · rw [State.note_hist, h₅]
    exact h.got p
  · rw [State.note_hist, h₅, h₂]
    exact h.tail p x hx

/-- A thread takes or gives up the lock. A process that takes it has been given no byte by its
current call. -/
theorem view (h : Inv s G) {l : Option (Tid n)}
    (hlock : LockOk (s.setLock .pi l) fun u => (update G t g u).held)
    (hpi : ∀ x, g.pi = some x → s.data.pi = x ∧ g.got = [])
    (hsame : g.src = (G t).src ∧ g.sent = (G t).sent ∧ g.got = (G t).got) :
    Inv (s.setLock .pi l) (update G t g) := by
  refine ⟨hlock, fun u x hx => ?_, h.fifo, h.size, fun p => ?_, fun p => ?_, fun p => ?_,
    fun p x hx => ?_, h.hist⟩
  · rcases update_cases hx with ⟨rfl, hnew⟩ | ⟨-, hx⟩
    · exact (hpi x hnew).1
    · exact h.pi u x hx
  · rw [view_update View.src hsame.1]
    exact h.src p
  · rw [view_update View.sent hsame.2.1]
    exact h.sent p
  · rw [view_update View.got hsame.2.2]
    exact h.got p
  · by_cases hu : Sum.inl p = t
    · rw [hu, update_self] at hx
      have hgot : Pipe.got p s.hist = [] := by
        rw [h.got p, hu, ← hsame.2.2]
        exact (hpi x hx).2
      show (Pipe.got p s.hist).map Prod.snd <:+ _
      rw [hgot]
      exact nil_suffix
    · rw [update_of_ne hu] at hx
      exact h.tail p x hx

/-- An event of process `p` about a call or a byte, with what it does to the pipe. Only the view of
`p` follows it. -/
theorem event (h : Inv s G) {e : Event n (Chan n)} (hheld : g'.held = (G (.inl p)).held)
    (hdata : s'.lock = s.lock ∧ s'.hist = e :: s.hist)
    (hpi : s'.data.pi = s.data.pi ∨ (G (.inl p)).held = some .pi)
    (hpi' : ∀ x, g'.pi = some x → s'.data.pi = x)
    (hfifo : delivered (e :: s.hist) ++ s'.data.pi.ring = accepted (e :: s.hist))
    (hsize : s'.data.pi.size ≤ 512)
    (hsrc : ∀ q, source q (e :: s.hist) = if q = p then g'.src else source q s.hist)
    (hsent : ∀ q, Pipe.sent q (e :: s.hist) = if q = p then g'.sent else Pipe.sent q s.hist)
    (hgot : ∀ q, Pipe.got q (e :: s.hist) = if q = p then g'.got else Pipe.got q s.hist)
    (htail : ∀ x, g'.pi = some x → g'.got.map Prod.snd <:+ delivered (e :: s.hist))
    (hdel : ¬ (G (.inl p)).held = some .pi → delivered (e :: s.hist) = delivered s.hist)
    (hhist : HistOk (e :: s.hist)) : Inv s' (update G (.inl p) g') := by
  -- A value that only the view of `p` follows.
  have hnew : ∀ {β : Type} (f : View → β) {b : Fin n → β}, (∀ q, b q = f (G (.inl q))) → ∀ q,
      (if q = p then f g' else b q) = f (update G (.inl p) g' (.inl q)) := by
    intro β f b hb q
    by_cases hq : q = p
    · rw [if_pos hq, hq, update_self]
    · rw [if_neg hq, update_of_ne (Sum.inl_injective.ne hq), hb]
  refine ⟨?_, fun u x hx => ?_, by rw [hdata.2]; exact hfifo, hsize, fun q => ?_, fun q => ?_,
    fun q => ?_, fun q x hx => ?_, by rw [hdata.2]; exact hhist⟩
  · intro l u
    rw [hdata.1, views_update_same View.held hheld]
    exact h.lock l u
  · rcases update_cases hx with ⟨rfl, hnew⟩ | ⟨hu, hx⟩
    · exact hpi' x hnew
    · rcases hpi with hpi | hpi
      · rw [hpi]
        exact h.pi u x hx
      · exact absurd (h.lock.unique (by rw [View.held, hx]; rfl) hpi) hu
  · rw [hdata.2, hsrc]
    exact hnew View.src h.src q
  · rw [hdata.2, hsent]
    exact hnew View.sent h.sent q
  · rw [hdata.2, hgot]
    exact hnew View.got h.got q
  · rw [hdata.2, hgot]
    by_cases hq : q = p
    · rw [hq, update_self] at hx
      rw [if_pos hq]
      exact htail x hx
    · rw [update_of_ne (Sum.inl_injective.ne hq)] at hx
      rw [if_neg hq, hdel]
      · exact h.tail q x hx
      · intro hp
        exact Sum.inl_injective.ne hq (h.lock.unique (by rw [View.held, hx]; rfl) hp)

end Inv

/-! ## The programs keep the invariant -/

/-- The logic of the queue. -/
abbrev logic (n : ℕ) : Logic (Tid n) Unit Halt (Kernel n) (Tid n → View) View :=
  localLogic Unit Halt Inv

theorem safe_wakeupFrom (c : Chan n) (qs : List (Fin n)) :
    Safe (logic n) t (fun _ v => v = g) (wakeupFrom c qs : KM n Unit) g :=
  safe_wakeupFrom_same (fun s G q h => (h.note (e := .visited q c) trivial h.hist).congr
    (wakeupOf_lock ..) (by rw [wakeupOf_data]; rfl) (wakeupOf_hist ..)) qs

theorem safe_read {α : Type} (f : Pipe → α) :
    Safe (logic n) (.inl p) (fun a v => a = f x ∧ v = ⟨some x, src, l, l'⟩)
      (mine fun _ s => (f s.data.pi, s) : KM n α) ⟨some x, src, l, l'⟩ := by
  refine safe_mine_same fun s G h hG _ => ⟨h, congrArg f (h.pi (.inl p) x ?_), rfl⟩
  rw [hG]

theorem safe_killed : Safe (logic n) (.inl p) (fun _ v => v = g) (killed : KM n Bool) g :=
  safe_killed_same fun _ _ h => h.note trivial h.hist

theorem safe_lock (hg : Idle g) : Safe (logic n) t (fun _ v => ∃ x, v = ⟨some x, g.src, g.sent, []⟩)
      (acquire .pi : KM n Unit) g := by
  refine safe_acquire fun s G h hG hr hfree =>
    ⟨⟨some s.data.pi, g.src, g.sent, []⟩, h.view ?_ ?_ ?_, _, rfl⟩
  · rw [views_update View.held]
    refine h.lock.acquire hfree ?_
    rw [hG, View.held, hg.1]
    rfl
  · rintro x ⟨⟩
    exact ⟨rfl, rfl⟩
  · rw [hG]
    exact ⟨rfl, rfl, hg.2.symm⟩

theorem safe_unlock : Safe (logic n) t (fun _ v => v = ⟨none, src, l, l'⟩) (release .pi : KM n Unit)
      ⟨some x, src, l, l'⟩ := by
  refine safe_release fun s G h hG hr hheld => ⟨⟨none, src, l, l'⟩, h.view ?_ nofun ?_, rfl⟩
  · rw [views_update View.held]
    exact h.lock.release hheld
  · rw [hG]
    exact ⟨rfl, rfl, rfl⟩

/-- From `sleep_prepare` to the next hold of the lock. -/
theorem safe_nap (c : Chan n) :
    Safe (logic n) (.inl p) (fun _ v => ∃ y, v = ⟨some y, src, l, []⟩)
      (do sleepPrepare c; release .pi; sleep; acquire .pi : KM n Unit) ⟨some x, src, l, []⟩ := by
  refine Safe.seq (w := ⟨some x, src, l, []⟩) (safe_mine_same fun s G h hG _ =>
    ⟨(h.note (e := .prepared p c) trivial h.hist).congr rfl rfl rfl, rfl⟩) fun _ => ?_
  refine safe_unlock.seq fun _ => ?_
  refine Safe.seq (w := ⟨none, src, l, []⟩) (safe_mine_same fun s G h hG _ => ⟨?_, rfl⟩)
    fun _ => safe_lock ⟨rfl, rfl⟩
  have hnote : Inv (s.note (.slept p)) G := h.note trivial h.hist
  simp only [sleepOf]
  split_ifs
  · exact hnote.congr rfl rfl rfl
  · exact hnote

/-- A writer adds a byte. -/
theorem safe_push {ch : UInt8} (hfull : x.full = false) :
    Safe (logic n) (.inl p) (fun _ v => v = ⟨some (x.push ch), src, l ++ [ch], []⟩)
      (mine fun p s => ((), (s.setPi (s.data.pi.push ch)).note (.accepted p ch)) : KM n Unit)
      ⟨some x, src, l, []⟩ := by
  refine safe_mine fun s G h hG hr => ⟨_, ?_, rfl⟩
  have hx : s.data.pi = x := h.pi (.inl p) x (by rw [hG])
  have hlt : s.data.pi.size < 512 :=
    lt_of_le_of_ne h.size (by rw [hx]; exact size_ne_of_not_full hfull)
  refine h.event (by rw [hG]; rfl) ⟨rfl, rfl⟩ (.inr (by rw [hG]; rfl)) ?_ ?_
    ?_ ?_ ?_ ?_ ?_ ?_ h.hist
  · rintro y ⟨⟩
    rw [← hx]
    rfl
  · show delivered s.hist ++ (s.data.pi.push ch).ring = accepted s.hist ++ [ch]
    rw [ring_push hlt, ← append_assoc, h.fifo]
  · show (s.data.pi.push ch).size ≤ 512
    rw [size_push hlt]
    exact hlt
  · exact follows_same ((h.src p).trans (by rw [hG]))
  · intro q
    rw [Pipe.sent]
    by_cases hq : q = p
    · rw [hq, if_pos rfl, if_pos rfl, h.sent p, hG]
    · rw [if_neg (Ne.symm hq), if_neg hq]
  · exact follows_same ((h.got p).trans (by rw [hG]))
  · exact fun _ _ => nil_suffix
  · exact fun _ => rfl

/-- A reader takes a byte. -/
theorem safe_pop {i : ℕ} (hempty : x.empty = false) :
    Safe (logic n) (.inl p) (fun _ v => v = ⟨some x.pop, src, l, l' ++ [(i, x.front)]⟩)
      (mine fun p s => ((), (s.setPi s.data.pi.pop).note (.delivered p i s.data.pi.front)) :
        KM n Unit) ⟨some x, src, l, l'⟩ := by
  refine safe_mine fun s G h hG hr => ⟨_, ?_, rfl⟩
  have hx : s.data.pi = x := h.pi (.inl p) x (by rw [hG])
  have hne : s.data.pi.size ≠ 0 := by
    rw [hx]
    exact size_ne_zero_of_not_empty hempty
  have htail : (Pipe.got p s.hist).map Prod.snd <:+ delivered s.hist :=
    h.tail p x (by rw [hG])
  refine h.event (by rw [hG]; rfl) ⟨rfl, rfl⟩
    (.inr (by rw [hG]; rfl)) ?_ ?_ ?_ ?_ ?_ ?_ ?_ ?_ h.hist
  · rintro y ⟨⟩
    rw [← hx]
    rfl
  · show delivered s.hist ++ [s.data.pi.front] ++ s.data.pi.pop.ring = accepted s.hist
    rw [← h.fifo, ring_pop hne, append_assoc]
    rfl
  · show s.data.pi.pop.size ≤ 512
    have := size_pop hne
    have := h.size
    omega
  · exact follows_same ((h.src p).trans (by rw [hG]))
  · exact follows_same ((h.sent p).trans (by rw [hG]))
  · intro q
    rw [Pipe.got]
    by_cases hq : q = p
    · rw [hq, if_pos rfl, if_pos rfl, h.got p, hG, hx]
    · rw [if_neg (Ne.symm hq), if_neg hq]
  · intro y hy
    have hl' : l' = Pipe.got p s.hist := by rw [h.got p, hG]
    show (l' ++ [(i, x.front)]).map Prod.snd <:+ delivered s.hist ++ [s.data.pi.front]
    rw [map_append, hl', hx]
    obtain ⟨pre, hpre⟩ := htail
    exact ⟨pre, by rw [← hpre, append_assoc]; rfl⟩
  · intro hno
    rw [hG] at hno
    exact absurd rfl hno

/-- The end of a write is recorded under the lock. -/
theorem safe_writeRet {e : Fin n → Event n (Chan n)} (he : Quiet (e p))
    (hok : ∀ h : List (Event n (Chan n)), source p h = src → Pipe.sent p h = l → HistOk h →
      HistOk (e p :: h)) :
    Safe (logic n) (.inl p) (fun _ v => v = ⟨some x, src, l, l'⟩) (record e : KM n Unit)
      ⟨some x, src, l, l'⟩ := by
  refine safe_mine_same fun s G h hG _ => ⟨h.note he ?_, rfl⟩
  exact hok s.hist ((h.src p).trans (by rw [hG])) ((h.sent p).trans (by rw [hG])) h.hist

/-- The end of a read is recorded under the lock. -/
theorem safe_readRet (hk : 0 ≤ k → l'.map Prod.fst = List.range k.toNat) :
    Safe (logic n) (.inl p) (fun _ v => v = ⟨some x, src, l, []⟩)
      (record (.readRet · k) : KM n Unit) ⟨some x, src, l, l'⟩ := by
  refine safe_mine fun s G h hG hr => ⟨_, ?_, rfl⟩
  have hgot : Pipe.got p s.hist = l' := (h.got p).trans (by rw [hG])
  refine h.event (by rw [hG]; rfl) ⟨rfl, rfl⟩ (.inl rfl) ?_ h.fifo h.size ?_ ?_
    ?_ (fun _ _ => nil_suffix) (fun _ => rfl) ⟨fun hk0 => ?_, h.hist⟩
  · rintro y ⟨⟩
    exact h.pi (.inl p) x (by rw [hG])
  · exact follows_same ((h.src p).trans (by rw [hG]))
  · exact follows_same ((h.sent p).trans (by rw [hG]))
  · exact follows (fun q => Pipe.got q s.hist) _
  · refine ⟨?_, h.tail p x (by rw [hG])⟩
    rw [hgot]
    exact hk hk0

theorem safe_pipewriteEnd (hk : 0 ≤ k → l.map some = (List.range k.toNat).map src) :
    Safe (logic n) (.inl p) (fun _ v => Idle v) (pipewriteEnd k : KM n ℤ) ⟨some x, src, l, []⟩ := by
  refine (safe_wakeupFrom _ _).seq fun _ => ?_
  refine Safe.seq (safe_writeRet trivial fun h hsrc hl hh => ⟨fun hk0 => ?_, hh⟩) fun _ =>
    safe_unlock.seq fun _ => ⟨rfl, rfl⟩
  rw [hl, hsrc]
  exact hk hk0

theorem safe_pipewriteStop :
    Safe (logic n) (.inl p) (fun _ v => Idle v) (pipewriteStop : KM n ℤ) ⟨some x, src, l, []⟩ := by
  refine Safe.seq (safe_writeRet trivial fun h _ _ hh => ⟨fun hk0 => ?_, hh⟩) fun _ =>
    safe_unlock.seq fun _ => ⟨rfl, rfl⟩
  omega

/-- A writer that is at its byte `i` has added the `i` bytes before. -/
theorem safe_pipewriteFrom {n' : ℤ} (fuel i : ℕ) (hl : l.map some = (List.range i).map src) :
    Safe (logic n) (.inl p) (fun _ v => Idle v) (pipewriteFrom src n' fuel i : KM n ℤ)
      ⟨some x, src, l, []⟩ := by
  induction fuel generalizing i l x with
  | zero => exact safe_stay
  | succ fuel ih =>
    have hnat : 0 ≤ (i : ℤ) → l.map some = (List.range (i : ℤ).toNat).map src := fun _ => hl
    rw [pipewriteFrom]
    by_cases hlt : (i : ℤ) < n'
    · rw [if_pos hlt]
      refine Safe.seq (w := ⟨some x, src, l, []⟩) ?_ fun stop => ?_
      · refine (safe_read fun y => y.readopen).seq_eq ?_
        cases x.readopen with
        | true => exact safe_killed
        | false => rfl
      cases stop with
      | true => exact safe_pipewriteStop
      | false =>
        refine (safe_read fun y => y.full).seq_eq ?_
        cases hfull : x.full with
        | true =>
          exact Safe.seq_exists
            ((safe_wakeupFrom _ _).seq fun _ => safe_nap _) fun _ y => ih i hl
        | false =>
          cases hch : src i with
          | none =>
            refine safe_pipewriteEnd fun hk => ?_
            split_ifs at hk ⊢ with hi
            · omega
            · exact hl
          | some ch =>
            refine (safe_push hfull).seq fun _ => ih (i + 1) ?_
            rw [map_append, hl, range_succ, map_append, map_singleton, map_singleton, hch]
    · rw [if_neg hlt]
      exact safe_pipewriteEnd hnat

theorem safe_pipereadEnd (hk : 0 ≤ k → l'.map Prod.fst = List.range k.toNat) :
    Safe (logic n) (.inl p) (fun _ v => Idle v) (pipereadEnd k : KM n ℤ) ⟨some x, src, l, l'⟩ :=
  (safe_wakeupFrom _ _).seq fun _ => (safe_readRet hk).seq fun _ =>
    safe_unlock.seq fun _ => ⟨rfl, rfl⟩

/-- A reader that is at its byte `i` has been given the `i` bytes before. -/
theorem safe_pipereadFrom (todo i : ℕ) (hl : l'.map Prod.fst = List.range i) :
    Safe (logic n) (.inl p) (fun _ v => Idle v) (pipereadFrom dst todo i : KM n ℤ)
      ⟨some x, src, l, l'⟩ := by
  induction todo generalizing i l' x with
  | zero => exact safe_pipereadEnd fun _ => hl
  | succ todo ih =>
    rw [pipereadFrom]
    refine (safe_read fun y => y.empty).seq_eq ?_
    cases hempty : x.empty with
    | true => exact safe_pipereadEnd fun _ => hl
    | false =>
      cases dst i with
      | false =>
        refine safe_pipereadEnd fun hk => ?_
        split_ifs at hk ⊢ with hi
        · omega
        · exact hl
      | true =>
        refine (safe_pop hempty).seq fun _ => ih (i + 1) ?_
        rw [map_append, hl, range_succ, map_singleton]

theorem safe_pipereadWait {n' : ℤ} (fuel : ℕ) :
    Safe (logic n) (.inl p) (fun _ v => Idle v) (pipereadWait dst n' fuel : KM n ℤ)
      ⟨some x, src, l, []⟩ := by
  induction fuel generalizing x with
  | zero => exact safe_stay
  | succ fuel ih =>
    rw [pipereadWait]
    refine (safe_read fun y => y.empty && y.writeopen).seq_eq ?_
    cases x.empty && x.writeopen with
    | true =>
      refine safe_killed.seq fun dead => ?_
      cases dead with
      | true =>
        refine (safe_readRet fun hk0 => ?_).seq fun _ => safe_unlock.seq fun _ => ⟨rfl, rfl⟩
        omega
      | false => exact (safe_nap _).seq_exists fun _ y => ih
    | false => exact safe_pipereadFrom _ _ rfl

/-- The start of a `pipewrite`. -/
theorem safe_writeCall (src : ℕ → Option UInt8) (hg : Idle g) :
    Safe (logic n) (.inl p) (fun _ v => v = ⟨none, src, [], []⟩)
      (record (.writeCall · src) : KM n Unit) g := by
  refine safe_mine fun s G h hG hr => ⟨_, ?_, rfl⟩
  refine h.event ?_ ⟨rfl, rfl⟩ (.inl rfl) nofun h.fifo h.size ?_ ?_ ?_ nofun
    (fun _ => rfl) h.hist
  · rw [hG, View.held, View.held, hg.1]
  · exact follows (fun q => source q s.hist) _
  · exact follows (fun q => Pipe.sent q s.hist) _
  · exact follows_same ((h.got p).trans (by rw [hG]; exact hg.2))

/-- The start of a `piperead`. -/
theorem safe_readCall (hg : Idle g) :
    Safe (logic n) (.inl p) (fun _ v => v = ⟨none, g.src, g.sent, []⟩)
      (record .readCall : KM n Unit) g := by
  refine safe_mine fun s G h hG hr => ⟨_, ?_, rfl⟩
  refine h.event ?_ ⟨rfl, rfl⟩ (.inl rfl) nofun h.fifo h.size ?_ ?_ ?_ nofun
    (fun _ => rfl) h.hist
  · rw [hG, View.held, View.held, hg.1]
  · exact follows_same ((h.src p).trans (by rw [hG]))
  · exact follows_same ((h.sent p).trans (by rw [hG]))
  · exact follows (fun q => Pipe.got q s.hist) _

/-- Opening and closing changes no byte. -/
theorem safe_close
    {f : Pipe → Pipe} (hsize : ∀ y, (f y).size = y.size) (hring : ∀ y, (f y).ring = y.ring) :
    Safe (logic n) (.inl p) (fun _ v => v = ⟨some (f x), src, l, l'⟩)
      (mine fun _ s => ((), s.setPi (f s.data.pi)) : KM n Unit) ⟨some x, src, l, l'⟩ := by
  refine safe_mine fun s G h hG hr => ⟨_, ?_, rfl⟩
  refine ⟨?_, fun u y hy => ?_, ?_, ?_, fun q => ?_, fun q => ?_, fun q => ?_, fun q y hy => ?_,
    h.hist⟩
  · rw [views_update_same View.held (by rw [hG]; rfl)]
    exact h.lock
  · rcases update_cases hy with ⟨rfl, ⟨⟩⟩ | ⟨hu, hy⟩
    · show f s.data.pi = f x
      rw [h.pi (.inl p) x (by rw [hG])]
    · refine absurd (h.lock.unique (l := .pi) ?_ ?_) hu
      · rw [View.held, hy]
        rfl
      · rw [hG]
        rfl
  · show delivered s.hist ++ (f s.data.pi).ring = accepted s.hist
    rw [hring]
    exact h.fifo
  · show (f s.data.pi).size ≤ 512
    rw [hsize]
    exact h.size
  · rw [view_update View.src (by rw [hG])]
    exact h.src q
  · rw [view_update View.sent (by rw [hG])]
    exact h.sent q
  · rw [view_update View.got (by rw [hG])]
    exact h.got q
  · by_cases hq : q = p
    · rw [hq]
      exact h.tail p x (by rw [hG])
    · rw [update_of_ne (Sum.inl_injective.ne hq)] at hy
      exact h.tail q y hy

/-- The end of `pipeclose`. -/
theorem safe_closed {f : Pipe → Pipe} {c : Chan n}
    (hf : ∀ y, (f y).size = y.size ∧ (f y).ring = y.ring) :
    Safe (logic n) (.inl p) (fun _ v => Idle v)
      (do mine fun _ s => ((), s.setPi (f s.data.pi)); wakeup c; release .pi : KM n Unit)
      ⟨some x, src, l, []⟩ := by
  refine (safe_close (fun y => (hf y).1) fun y => (hf y).2).seq fun _ => ?_
  refine (safe_wakeupFrom _ _).seq fun _ => ?_
  exact safe_unlock.mono fun _ v hv => by rw [hv]; exact ⟨rfl, rfl⟩

theorem safe_call (y : Call n) (hg : Idle g) : Safe (logic n) t (fun _ v => Idle v) y.code g := by
  cases y with
  | pipewrite src n' fuel =>
    refine Safe.bind (Q := fun _ v => Idle v) ?_ fun _ _ hv => hv
    cases t with
    | inr k => exact safe_mine_inr_bind
    | inl p =>
      exact (safe_writeCall src hg).seq fun _ => (safe_lock ⟨rfl, rfl⟩).seq_exists fun _ x =>
        safe_pipewriteFrom fuel 0 rfl
  | piperead dst n' fuel =>
    refine Safe.bind (Q := fun _ v => Idle v) ?_ fun _ _ hv => hv
    cases t with
    | inr k => exact safe_mine_inr_bind
    | inl p =>
      exact (safe_readCall hg).seq fun _ => (safe_lock ⟨rfl, rfl⟩).seq_exists fun _ x =>
        safe_pipereadWait fuel
  | pipeclose writable =>
    refine (safe_lock hg).seq_exists fun _ x => ?_
    cases t with
    | inr k => cases writable <;> exact safe_mine_inr_bind
    | inl p =>
      cases writable with
      | true =>
        exact safe_closed (f := fun y => { y with writeopen := false })
          fun _ => ⟨rfl, rfl⟩
      | false =>
        exact safe_closed (f := fun y => { y with readopen := false })
          fun _ => ⟨rfl, rfl⟩
  | kkill pid =>
    exact (safe_kkillFrom_same (fun s G q h _ =>
      (h.note (e := .kill q pid t) trivial h.hist).congr rfl rfl rfl) _).seq fun _ => hg
  | setkilled =>
    cases t with
    | inr k => exact safe_mine_inr
    | inl p =>
      exact safe_mine_same fun s G h _ _ =>
        ⟨(h.note (e := .fault p) trivial h.hist).congr rfl rfl rfl, hg⟩
  | yield q =>
    refine (safe_yield fun s G h _ => h.congr rfl rfl rfl).mono fun _ v hv => ?_
    rw [hv]
    exact hg
  | schedule q =>
    refine (safe_schedule fun s G h _ => h.congr rfl rfl rfl).mono fun _ v hv => ?_
    rw [hv]
    exact hg

theorem inv_start (h : Start s) : Inv s fun _ => ⟨none, fun _ => none, [], []⟩ := by
  have hsize : s.data.pi.size = 0 := by
    rw [Pipe.size, h.empty, UInt32.sub_self]
    rfl
  refine ⟨fun l t => by simp [h.lock l, View.held], nofun, ?_, by omega, fun p => ?_, fun p => ?_,
    fun p => ?_, nofun, ?_⟩
  all_goals rw [h.hist]
  · simp [ring, hsize, accepted, delivered]
  · rfl
  · rfl
  · rfl
  · trivial

end Fifo

/-- **A pipe is a queue.** In every interleaving of readers, writers, closes and kills on one pipe,
whatever the counters started from: the bytes given to readers followed by the bytes in the ring
are the bytes taken from writers, each in their order; there are at most `PIPESIZE` bytes in the
ring; a `pipewrite` that returned `k` has added the first `k` bytes of its buffer in order; and a
`piperead` that returned `k` has stored, at the first `k` places of its buffer, the `k` bytes that
left the pipe last. -/
theorem pipe_fifo {s₀ : Kernel n} (h₀ : Start s₀) {t₀ : Tid n}
    {cfg : Config (Tid n) Unit Halt (Kernel n)}
    (hr : Reachable (system n) ((system n).powerOn s₀ t₀) cfg) :
    delivered cfg.shared.hist ++ cfg.shared.data.pi.ring = accepted cfg.shared.hist ∧
    (cfg.shared.data.pi.nwrite - cfg.shared.data.pi.nread).toNat ≤ pipeSize.toNat ∧
    (∀ h₁ h₂ p k, cfg.shared.hist = h₁ ++ .writeRet p k :: h₂ → 0 ≤ k →
      (sent p h₂).map some = (List.range k.toNat).map (source p h₂)) ∧
    (∀ h₁ h₂ p k, cfg.shared.hist = h₁ ++ .readRet p k :: h₂ → 0 ≤ k →
      (got p h₂).map Prod.fst = List.range k.toNat ∧
        (got p h₂).map Prod.snd <:+ delivered h₂) := by
  obtain ⟨G, h⟩ := inv_of_reachable not_false
    (fun t x s _ g (hg : Fifo.Idle g) => Fifo.safe_call x hg) (Fifo.inv_start h₀)
    (fun _ => ⟨rfl, rfl⟩) rfl hr
  refine ⟨h.fifo, h.size, fun h₁ h₂ p k hh hk => ?_, fun h₁ h₂ p k hh hk => ?_⟩
  · have hok := h.hist
    rw [hh] at hok
    exact hok.of_append.1 hk
  · have hok := h.hist
    rw [hh] at hok
    exact hok.of_append.1 hk

/-- Two processes and an empty pipe whose counters are about to wrap. -/
def wrapProcs : Kernel 2 where
  proc p := ⟨.running, none, false, 0, Int32.ofNat (p + 1), none, true, true, fun _ => false, true⟩
  nextpid := 3
  lock _ := none
  data := ⟨⟨fun _ => 0, 4294967295, 4294967295, true, true⟩, ⟨fun _ => 0, 0, 0, 0⟩, 0⟩
  hist := []

theorem start_wrapProcs : Start wrapProcs := ⟨fun _ => rfl, fun _ => nofun, rfl, rfl⟩

/-- Process 0 writes two bytes and process 1 reads one. -/
def wrapMoves : List (Move (Tid 2) (Call 2)) :=
  .call (.inl 0) (.pipewrite (fun i => some (UInt8.ofNat (65 + i))) 2 3) ::
    List.replicate 14 (.act (.inl 0)) ++
    .call (.inl 1) (.piperead (fun _ => true) 1 1) :: List.replicate 9 (.act (.inl 1))

/-- A write across the wrap of the counters, and a read after it. -/
theorem pipe_fifo_wrap : ∃ cfg, Reachable (system 2)
    ((system 2).powerOn wrapProcs (.inr 0)) cfg ∧ cfg.shared.data.pi.nwrite = 1 ∧
    accepted cfg.shared.hist = [65, 66] ∧ delivered cfg.shared.hist = [65] ∧
    delivered cfg.shared.hist ++ cfg.shared.data.pi.ring = accepted cfg.shared.hist := by
  have hrun : ((system 2).play wrapMoves ((system 2).powerOn wrapProcs (.inr 0))).any
      (fun cfg => cfg.shared.data.pi.nwrite = 1 ∧ accepted cfg.shared.hist = [65, 66] ∧
        delivered cfg.shared.hist = [65]) = true := by
    decide +kernel
  obtain ⟨cfg, hr, hw, ha, hd⟩ := exists_of_play _ hrun
  exact ⟨cfg, hr, hw, ha, hd, (pipe_fifo start_wrapProcs hr).1⟩

end Pipe

end Process

end TrinityXv6
