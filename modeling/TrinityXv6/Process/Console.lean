import TrinityXv6.Lib.Erase
import TrinityXv6.Process.Line

/-!
# Readers of the console

`consoleread` and `consoleintr` by any number of processes and processors in any interleaving, with
a history of what is typed, taken, put back and delivered. The buffer holds, at every moment, the
queue and the line that the history says it holds; a reader takes from the front of the queue and
is given what it takes, and ends where it should.

The programs are those of `TrinityXv6.Process.Wait` with the history added, for readers whose copies
do not fault, and every run of those is one of these without its history (`erases_plain`). All
entries are made while `cons.lock` is held. Reads of killed processes are part of the model; they
are the ones that return `-1`.

## Main definitions

* `Console.Event`, `Console.Traced` — the history
* `Console.replay` — the queue and the line after a history
* `Console.HistOk` — what is taken comes from the front, and reads end where they should

## Main results

* `Console.safe_call` — every call keeps the invariant
* `console_line_discipline` — the buffer, the deliveries and the ends of reads, in every run
-/

namespace TrinityXv6

namespace Process

namespace Console

open Threads
open Function (update update_self update_of_ne update_eq_self)

/-- What the history records. -/
inductive Event (n : ℕ) where
  /-- `consoleintr` has handled a character. -/
  | typed (c : UInt8)
  /-- A read of up to `n'` bytes has begun. -/
  | call (p : Fin n) (n' : ℤ)
  /-- A reader has moved `cons.r` past a character, and back. -/
  | took (p : Fin n) (c : UInt8)
  | gaveBack (p : Fin n)
  /-- A byte has been copied to the memory of a reader. -/
  | delivered (p : Fin n) (c : UInt8)
  /-- A read is about to return. -/
  | ret (p : Fin n) (k : ℤ)

/-- What the locks protect, and the history, newest first. -/
structure Traced (n : ℕ) where
  data : Kdata
  hist : List (Event n)

/-- States of the kernel with a history of the console. -/
abbrev St (n : ℕ) := State n (Chan n) Lock (Traced n)

/-- Code over such states. -/
abbrev TM (n : ℕ) := K n (Chan n) Lock (Traced n)

variable {n : ℕ}

/-- The buffer. -/
def cons (s : St n) : Cons := s.data.data.cons

/-- Put the buffer. -/
def setCons (s : St n) (x : Cons) : St n :=
  s.setData { s.data with data := { s.data.data with cons := x } }

/-- Record an event. -/
def log (s : St n) (e : Event n) : St n := s.setData { s.data with hist := e :: s.data.hist }

/-- An entry of the history that is made on its own. -/
def record (e : Fin n → Event n) : TM n Unit := .atomic fun t s =>
  match t with
  | .inl p => .done () (log s (e p)) []
  | .inr _ => .done () s []

/-! ## The code -/

/-- The end of `consoleread`. -/
def consolereadEnd (i : ℕ) : TM n ℤ := do
  record (.ret · i)
  release .cons
  pure i

/-- `consoleread` finds an end of file. -/
def consolereadEof (i : ℕ) : TM n ℤ := do
  mine fun p s => ((), if 0 < i then log (setCons s (cons s).unread) (.gaveBack p) else s)
  consolereadEnd i

/-- `c = cons.buf[cons.r++ % INPUT_BUF_SIZE]` -/
def take : TM n UInt8 :=
  mine fun p s => ((cons s).front, log (setCons s (cons s).next) (.took p (cons s).front))

/-- One turn of the wait. -/
def nap : TM n Unit := do
  sleepPrepare .consr
  release .cons
  sleep
  acquire .cons

/-- `killed(myproc())`, which ends a read that waits. -/
def killed : TM n Bool := mine fun p s =>
  ((s.proc p).killed, if (s.proc p).killed then log s (.ret p (-1)) else (killedOf p s).2)

/-- The loops of `consoleread`; `i` bytes have been copied. -/
def consolereadFrom (n' : ℤ) : ℕ → ℕ → TM n ℤ
  | 0, _ => stay
  | fuel + 1, i =>
    if (i : ℤ) < n' then do
      let wait ← mine fun _ s => (decide ((cons s).r = (cons s).w), s)
      if wait then do
        let dead ← killed
        if dead then do
          release .cons
          pure (-1)
        else do
          nap
          consolereadFrom n' fuel i
      else do
        let c ← take
        if c = ctrlD then consolereadEof i
        else do
          record (.delivered · c)
          if c = newline then consolereadEnd (i + 1) else consolereadFrom n' fuel (i + 1)
    else consolereadEnd i

/-- `consoleread` -/
def consoleread (n' : ℤ) (fuel : ℕ) : TM n ℤ := do
  acquire .cons
  record (.call · n')
  consolereadFrom n' fuel 0

/-- `wakeup(&cons.r)`, for a line that is complete. -/
def wakeCons (wake : Bool) : TM n Unit := if wake then wakeup .consr else pure ()

/-- `consoleintr` -/
def consoleintr (c : UInt8) : TM n Unit := do
  acquire .cons
  let wake ← always fun s => (((cons s).intr c).1, log (setCons s ((cons s).intr c).2) (.typed c))
  wakeCons wake
  release .cons

/-- What a process or a processor may do. -/
inductive Call (n : ℕ) where
  | consoleread (n' : ℤ) (fuel : ℕ)
  | consoleintr (c : UInt8)
  | kkill (pid : Int32)
  | setkilled
  | yield (q : Fin n)
  | schedule (q : Fin n)

/-- The program of a call. -/
def Call.code : Call n → TM n Unit
  | .consoleread n' fuel => do
    let _ ← Console.consoleread n' fuel
    pure ()
  | .consoleintr c => Console.consoleintr c
  | .kkill pid => do
    let _ ← Process.kkill pid
    pure ()
  | .setkilled => Process.setkilled
  | .yield q => Process.yield q
  | .schedule q => Process.schedule q

/-- Readers of the console, input, kills and the scheduler, in any order. -/
def system (n : ℕ) : System (Tid n) Unit Halt (St n) where
  Call := Call n
  code := Call.code
  may _ _ _ := True
  resets := False
  reset s := s
  boot := pure ()

instance (t : Tid n) (x : (system n).Call) (s : St n) : Decidable ((system n).may t x s) :=
  .isTrue trivial

/-- Nobody holds a lock, and the buffer is empty, wherever its counters stand. -/
structure Start (s : St n) : Prop where
  lock : ∀ l, s.lock l = none
  w_eq : (cons s).w = (cons s).r
  e_eq : (cons s).e = (cons s).r
  hist : s.data.hist = []

/-! ## Without the history -/

/-- The state without the history. -/
def erase (s : St n) : Kernel n := ⟨s.proc, s.nextpid, s.lock, s.data.data, s.hist⟩

/-- The program of a call, without the history. -/
def Call.plain : Call n → KM n Unit
  | .consoleread n' fuel => do
    let _ ← Process.consoleread (fun _ => true) n' fuel
    pure ()
  | .consoleintr c => Process.consoleintr c
  | .kkill pid => do
    let _ ← Process.kkill pid
    pure ()
  | .setkilled => Process.setkilled
  | .yield q => Process.yield q
  | .schedule q => Process.schedule q

/-- The same calls without the history. -/
def plain (n : ℕ) : System (Tid n) Unit Halt (Kernel n) where
  Call := Call n
  code := Call.plain
  may _ _ _ := True
  resets := False
  reset s := s
  boot := pure ()

section Erase

variable {α : Type}

theorem erase_lock (s : St n) : (erase s).lock = s.lock := rfl

theorem erase_proc (s : St n) : (erase s).proc = s.proc := rfl

theorem step_erases {f : Tid n → St n → Outcome Unit Halt (St n) α}
    {g : Tid n → Kernel n → Outcome Unit Halt (Kernel n) α}
    (h : ∀ t s, (f t s).map erase = g t (erase s)) : (step f : TM n α).Erases erase (step g) := by
  refine .atomic fun t s => ?_
  have hruns : (erase s).runs t ↔ s.runs t := by
    cases t <;> rfl
  by_cases hr : s.runs t
  · rw [if_pos hr, if_pos (hruns.mpr hr)]
    exact h t s
  · rw [if_neg hr, if_neg fun hr' => hr (hruns.mp hr')]
    rfl

theorem always_erases {f : St n → α × St n} {g : Kernel n → α × Kernel n}
    (h : ∀ s, ((f s).1, erase (f s).2) = g (erase s)) :
    (always f : TM n α).Erases erase (always g) := by
  refine step_erases fun t s => ?_
  rw [← h s]
  rfl

theorem mine_erases {f : Fin n → St n → α × St n} {g : Fin n → Kernel n → α × Kernel n}
    (h : ∀ p s, ((f p s).1, erase (f p s).2) = g p (erase s)) :
    (mine f : TM n α).Erases erase (mine g) := by
  refine step_erases fun t s => ?_
  cases t with
  | inl p =>
    simp only
    rw [← h p s]
    rfl
  | inr k => rfl

theorem stay_erases : (stay : TM n α).Erases erase stay := step_erases fun _ _ => rfl

theorem acquire_erases (l : Lock) : (acquire l : TM n Unit).Erases erase (acquire l) := by
  refine step_erases fun t s => ?_
  rw [erase_lock]
  cases s.lock l with
  | none => rfl
  | some u =>
    simp only
    split_ifs <;> rfl

theorem release_erases (l : Lock) : (release l : TM n Unit).Erases erase (release l) := by
  refine step_erases fun t s => ?_
  rw [erase_lock]
  split_ifs <;> rfl

theorem wakeupFrom_erases (c : Chan n) (qs : List (Fin n)) :
    (wakeupFrom c qs : TM n Unit).Erases erase (wakeupFrom c qs) := by
  induction qs with
  | nil => exact .ret ()
  | cons q qs ih =>
    refine (always_erases fun s => Prod.ext rfl ?_).bind fun _ => ih
    show erase (wakeupOf c q s) = wakeupOf c q (erase s)
    unfold wakeupOf
    rw [erase_proc]
    split_ifs <;> rfl

theorem kkillFrom_erases (pid : Int32) (qs : List (Fin n)) :
    (kkillFrom pid qs : TM n ℤ).Erases erase (kkillFrom pid qs) := by
  induction qs with
  | nil => exact .ret _
  | cons q qs ih =>
    refine (step_erases fun t s => ?_).bind fun found => (Prog.Erases.ret _).ite ih
    rw [erase_proc]
    split_ifs <;> rfl

theorem record_bind_erases {e : Fin n → Event n} {k : Unit → TM n α} {q : KM n α}
    (hk : ∀ u, (k u).Erases erase q) : (record e >>= k).Erases erase q := by
  refine .ghost_bind (fun t s => ?_) hk
  cases t with
  | inl p => exact ⟨(), log s (e p), rfl, rfl⟩
  | inr k => exact ⟨(), s, rfl, rfl⟩

theorem nap_erases : (nap : TM n Unit).Erases erase (Process.nap .consr .cons) := by
  refine (mine_erases fun p s => rfl).bind fun _ => (release_erases _).bind fun _ => ?_
  refine (mine_erases fun p s => Prod.ext rfl ?_).bind fun _ => acquire_erases _
  show erase (sleepOf p s) = sleepOf p (erase s)
  unfold sleepOf
  rw [erase_proc]
  split_ifs <;> rfl

theorem killed_bind_erases {k : Bool → TM n α} {l : Bool → KM n α}
    (hk : ∀ b, (k b).Erases erase (l b)) : (killed >>= k).Erases erase (Process.killed >>= l) := by
  refine (mine_erases fun p s => Prod.ext rfl ?_).bind hk
  show erase (if (s.proc p).killed then _ else (killedOf p s).2) = (killedOf p (erase s)).2
  by_cases hd : (s.proc p).killed = true
  · have hsame : (killedOf p (erase s)).2 = erase s := if_pos hd
    rw [if_pos hd, hsame]
    rfl
  · have htested : (killedOf p s).2 = s.note (.tested p) := if_neg hd
    have htested' : (killedOf p (erase s)).2 = (erase s).note (.tested p) := if_neg hd
    rw [if_neg hd, htested, htested']
    rfl

theorem consolereadEnd_erases (i : ℕ) :
    (consolereadEnd i : TM n ℤ).Erases erase (Process.consolereadEnd i) :=
  record_bind_erases fun _ => (release_erases _).bind fun _ => .ret _

theorem consolereadFrom_erases (n' : ℤ) (fuel i : ℕ) :
    (consolereadFrom n' fuel i : TM n ℤ).Erases erase
      (Process.consolereadFrom (fun _ => true) n' fuel i) := by
  induction fuel generalizing i with
  | zero => exact stay_erases
  | succ fuel ih =>
    refine Prog.Erases.ite ?_ (consolereadEnd_erases i)
    refine (mine_erases fun p s => rfl).bind fun wait => Prog.Erases.ite ?_ ?_
    · refine killed_bind_erases fun dead => Prog.Erases.ite ?_ ?_
      · exact (release_erases _).bind fun _ => .ret _
      · exact nap_erases.bind fun _ => ih i
    · refine (mine_erases fun p s => rfl).bind fun c => Prog.Erases.ite ?_ ?_
      · refine (mine_erases fun p s => Prod.ext rfl ?_).bind fun _ => consolereadEnd_erases i
        split_ifs <;> rfl
      · rw [if_pos rfl]
        exact record_bind_erases fun _ => (consolereadEnd_erases _).ite (ih _)

theorem system_erases (n : ℕ) : (system n).Erases erase (plain n) where
  call y := by
    refine ⟨y, ?_, fun _ _ _ => trivial⟩
    cases y with
    | consoleread n' fuel =>
      refine Prog.Erases.bind ?_ fun _ => .ret ()
      refine (acquire_erases _).bind fun _ => ?_
      exact record_bind_erases fun _ => consolereadFrom_erases n' fuel 0
    | consoleintr c =>
      refine (acquire_erases _).bind fun _ => (always_erases fun s => rfl).bind fun wake => ?_
      refine Prog.Erases.bind ?_ fun _ => release_erases _
      exact (wakeupFrom_erases _ _).ite (.ret ())
    | kkill pid => exact (kkillFrom_erases pid _).bind fun _ => .ret ()
    | setkilled => exact mine_erases fun p s => rfl
    | yield q =>
      exact always_erases fun s => Prod.ext rfl (apply_ite erase _ _ _)
    | schedule q =>
      exact always_erases fun s => Prod.ext rfl (apply_ite erase _ _ _)
  boot := .ret ()
  resets h := h

/-- **Nothing is added but the history**, call by call and run by run: whatever the system without a
history reaches is what is left of a state that the system with one reaches. -/
theorem erases_plain (n : ℕ) : (system n).Erases erase (plain n) ∧
    ∀ (s : St n) (t₀ : Tid n) (cfg' : Config (Tid n) Unit Halt (Kernel n)),
      Reachable (plain n) ((plain n).powerOn (erase s) t₀) cfg' →
      ∃ cfg, Reachable (system n) ((system n).powerOn s t₀) cfg ∧ Follows erase cfg cfg' :=
  ⟨system_erases n, fun _ _ _ hr => follows_of_reachable (system_erases n) hr⟩

end Erase

/-! ## What a history says -/

/-- The queue and the line. -/
def replay : List (Event n) → Line
  | .typed c :: h => (replay h).input c
  | .took _ _ :: h => ⟨(replay h).queue.tail, (replay h).edit⟩
  | .gaveBack _ :: h => ⟨ctrlD :: (replay h).queue, (replay h).edit⟩
  | .call _ _ :: h | .delivered _ _ :: h | .ret _ _ :: h => replay h
  | [] => ⟨[], []⟩

/-- Everything that has joined the queue, oldest first. -/
def committed : List (Event n) → List UInt8
  | .typed c :: h => committed h ++ ((replay h).input c).queue.drop (replay h).queue.length
  | .took _ _ :: h | .gaveBack _ :: h | .call _ _ :: h | .delivered _ _ :: h | .ret _ _ :: h =>
    committed h
  | [] => []

/-- Everything that readers have removed from the queue, oldest first. -/
def removed : List (Event n) → List (Fin n × UInt8)
  | .took p c :: h => removed h ++ [(p, c)]
  | .gaveBack _ :: h => (removed h).dropLast
  | .typed _ :: h | .call _ _ :: h | .delivered _ _ :: h | .ret _ _ :: h => removed h
  | [] => []

/-- Everything that has been delivered, oldest first. -/
def delivered : List (Event n) → List (Fin n × UInt8)
  | .delivered p c :: h => delivered h ++ [(p, c)]
  | .typed _ :: h | .call _ _ :: h | .took _ _ :: h | .gaveBack _ :: h | .ret _ _ :: h =>
    delivered h
  | [] => []

/-- Characters other than an end of file. -/
def kept (l : List (Fin n × UInt8)) : List (Fin n × UInt8) := l.filter (·.2 ≠ ctrlD)

theorem kept_append (l l' : List (Fin n × UInt8)) : kept (l ++ l') = kept l ++ kept l' :=
  List.filter_append ..

theorem kept_singleton (p : Fin n) (c : UInt8) :
    kept [(p, c)] = if c = ctrlD then [] else [(p, c)] := by
  by_cases hc : c = ctrlD <;> simp [kept, hc]

/-- A read: how much it asked for, what it has been given, and whether it has removed an end of
file. -/
structure Read where
  asked : ℤ
  got : List UInt8
  eof : Bool

/-- The last read of `p`. -/
def current (p : Fin n) : List (Event n) → Read
  | .call q n' :: h => if q = p then ⟨n', [], false⟩ else current p h
  | .delivered q c :: h =>
    if q = p then { current p h with got := (current p h).got ++ [c] } else current p h
  | .took q c :: h => if q = p then { current p h with eof := c = ctrlD } else current p h
  | .gaveBack q :: h => if q = p then { current p h with eof := false } else current p h
  | .typed _ :: h | .ret _ _ :: h => current p h
  | [] => ⟨0, [], false⟩

/-- How a read may return `k`, with queue `q`: after all bytes it asked for, after a newline, at an
end of file that it has removed because it had been given nothing, or at one that it has left
because it had been given something. -/
structure Returns (k : ℤ) (x : Read) (q : List UInt8) : Prop where
  count : k = x.got.length
  le : x.got.length ≤ x.asked.toNat
  /-- It did not go on after a newline or an end of file. -/
  newline : newline ∉ x.got.dropLast
  ctrlD : ctrlD ∉ x.got
  ends : x.eof = false ∧ x.got.length = x.asked.toNat ∨
    x.eof = false ∧ x.got.getLast? = some Process.newline ∨
    x.eof = true ∧ x.got = [] ∨
    x.eof = false ∧ x.got ≠ [] ∧ q.head? = some Process.ctrlD

/-- What is taken comes from the front of the queue, what is put back is an end of file that was
taken last, and reads that are not cut short return where they should. -/
def HistOk : List (Event n) → Prop
  | .took _ c :: h => (replay h).queue.head? = some c ∧ HistOk h
  | .gaveBack p :: h => (removed h).getLast? = some (p, ctrlD) ∧ HistOk h
  | .ret p k :: h => (k ≠ -1 → Returns k (current p h) (replay h).queue) ∧ HistOk h
  | .typed _ :: h | .call _ _ :: h | .delivered _ _ :: h => HistOk h
  | [] => True

/-- A character only adds to the queue. -/
theorem queue_input (c : UInt8) (l : Line) :
    l.queue ++ (l.input c).queue.drop l.queue.length = (l.input c).queue := by
  have hadds : ∃ L, (l.input c).queue = l.queue ++ L := by
    rw [Line.input]
    simp only [Line.commit]
    split_ifs
    all_goals first | exact ⟨[], (List.append_nil _).symm⟩ | exact ⟨_, rfl⟩
  obtain ⟨L, hL⟩ := hadds
  rw [hL, List.drop_left]

/-- **Nothing is lost and nothing is duplicated**: what has joined the queue is what has been
removed and what is still there, in this order. -/
theorem HistOk.committed_eq {h : List (Event n)} (hh : HistOk h) :
    (removed h).map Prod.snd ++ (replay h).queue = committed h := by
  induction h with
  | nil => rfl
  | cons e h ih =>
    cases e with
    | typed c =>
      show (removed h).map Prod.snd ++ ((replay h).input c).queue = _
      rw [committed, ← ih hh, List.append_assoc, queue_input]
    | took p c =>
      obtain ⟨hc, hh⟩ := hh
      obtain ⟨q, hq⟩ : ∃ q, (replay h).queue = c :: q := List.head?_eq_some_iff.mp hc
      show (removed h ++ [(p, c)]).map Prod.snd ++ (replay h).queue.tail = committed h
      rw [← ih hh, hq]
      simp
    | gaveBack p =>
      obtain ⟨hl, hh⟩ := hh
      obtain ⟨l, hl⟩ : ∃ l, removed h = l ++ [(p, ctrlD)] := List.getLast?_eq_some_iff.mp hl
      show (removed h).dropLast.map Prod.snd ++ ctrlD :: (replay h).queue = committed h
      rw [← ih hh, hl]
      simp
    | call p n' => exact ih hh
    | delivered p c => exact ih hh
    | ret p k => exact ih hh.2

/-! ## The invariant -/

/-- What a thread knows between two actions: the buffer if it holds the lock, together with a
character it has taken and neither delivered nor put back, and its last read. -/
structure View where
  hold : Option (Cons × Option UInt8)
  read : Read

/-- The lock that goes with a view. -/
def View.held (v : View) : Option Lock := v.hold.map fun _ => .cons

/-- The deliveries lag behind the removals by the character a reader has in its hands. -/
def Lags (o : Option UInt8) (p : Option (Fin n)) (h : List (Event n)) : Prop :=
  match o, p with
  | none, _ => delivered h = kept (removed h)
  | some c, some p => delivered h ++ kept [(p, c)] = kept (removed h) ∧
      (removed h).getLast? = some (p, c)
  | some _, none => False

/-- The process behind a thread. -/
def procOf : Tid n → Option (Fin n)
  | .inl p => some p
  | .inr _ => none

/-- A step on the process table that gives no process its life back. -/
structure Table (s s' : St n) : Prop where
  lock : s'.lock = s.lock
  data : s'.data = s.data
  killed : ∀ p, (s.proc p).killed = true → (s'.proc p).killed = true

namespace Table

variable {s s' s'' : St n} {q : Fin n} {v : Proc n (Chan n)}

theorem refl (s : St n) : Table s s := ⟨rfl, rfl, fun _ => id⟩

theorem note (h : Table s s') (e : Process.Event n (Chan n)) : Table s (s'.note e) :=
  ⟨h.lock, h.data, h.killed⟩

theorem setProc (hv : (s.proc q).killed = true → v.killed = true) : Table s (s.setProc q v) := by
  refine ⟨rfl, rfl, fun p hp => ?_⟩
  by_cases hpq : p = q
  · rw [hpq] at hp ⊢
    rw [State.setProc_proc_self]
    exact hv hp
  · rwa [State.setProc_proc_of_ne _ _ hpq]

theorem prepareOf (c : Chan n) (p : Fin n) (s : St n) : Table s (prepareOf c p s) := by
  refine (setProc fun hp => ?_).note _
  exact hp

theorem sleepOf (p : Fin n) (s : St n) : Table s (sleepOf p s) := by
  unfold Process.sleepOf
  split_ifs
  · refine (setProc fun hp => ?_).note _
    exact hp
  · exact (refl s).note _

theorem wakeupOf (c : Chan n) (q : Fin n) (s : St n) : Table s (wakeupOf c q s) := by
  unfold Process.wakeupOf
  split_ifs
  · refine (setProc fun hq => ?_).note _
    rwa [Proc.rouse_killed]
  · exact (refl s).note _

theorem killedOf (p : Fin n) (s : St n) : Table s (killedOf p s).2 := by
  unfold Process.killedOf
  simp only
  split_ifs
  · exact refl s
  · exact (refl s).note _

theorem markOf (t : Tid n) (pid : Int32) (q : Fin n) (s : St n) : Table s (markOf t pid q s) := by
  refine (setProc fun _ => ?_).note _
  rw [Proc.rouse_killed]

end Table

/-- The buffer is what the history says. -/
structure Inv (s : St n) (G : Tid n → View) : Prop where
  lock : LockOk s fun t => (G t).held
  cons : ∀ t x o, (G t).hold = some (x, o) → cons s = x ∧ Lags o (procOf t) s.data.hist
  ring : Holds (Console.cons s) (replay s.data.hist)
  settled : (∀ t, (G t).hold = none) → delivered s.data.hist = kept (removed s.data.hist)
  read : ∀ p, current p s.data.hist = (G (.inl p)).read
  killed : ∀ p, Event.ret p (-1) ∈ s.data.hist → (s.proc p).killed = true
  hist : HistOk s.data.hist

namespace Inv

variable {s s' : St n} {G : Tid n → View} {t : Tid n} {x : Cons} {o : Option UInt8} {g : View}

variable (h : Inv s G)
include h

/-- A step on the process table. -/
theorem table (ht : Table s s') : Inv s' G := by
  refine ⟨fun l t => ?_, fun t x o ht' => ?_, ?_, ?_, ?_, fun p hp => ?_, ?_⟩
  · rw [ht.lock]
    exact h.lock l t
  · rw [Console.cons, ht.data]
    exact h.cons t x o ht'
  · rw [Console.cons, ht.data]
    exact h.ring
  · rw [ht.data]
    exact h.settled
  · rw [ht.data]
    exact h.read
  · rw [ht.data] at hp
    exact ht.killed p (h.killed p hp)
  · rw [ht.data]
    exact h.hist

/-- The lock has one holder. -/
theorem eq_of_hold {u : Tid n} {y y' : Cons × Option UInt8} (ht : (G t).hold = some y)
    (hu : (G u).hold = some y') : u = t :=
  h.lock.unique (by rw [View.held, hu]; rfl) (by rw [View.held, ht]; rfl)

/-- Nobody has the buffer while the lock is free. -/
theorem hold_none (hfree : s.lock .cons = none) (u : Tid n) : (G u).hold = none := by
  by_contra hu
  obtain ⟨y, hy⟩ := Option.ne_none_iff_exists'.mp hu
  have hheld : (G u).held = some .cons := by
    rw [View.held, hy]
    rfl
  have := (h.lock .cons u).mpr hheld
  rw [hfree] at this
  cases this

variable {r : Read}

/-- What the holder of the lock knows. -/
theorem knows (hG : G t = ⟨some (x, o), r⟩) :
    Console.cons s = x ∧ Lags o (procOf t) s.data.hist ∧ Holds x (replay s.data.hist) := by
  obtain ⟨hx, hlag⟩ := h.cons t x o (by rw [hG])
  refine ⟨hx, hlag, ?_⟩
  rw [← hx]
  exact h.ring

/-- A thread takes the lock. -/
theorem acquire (ht : (G t).hold = none) (hfree : s.lock .cons = none) :
    Inv (s.setLock .cons (some t)) (update G t ⟨some (Console.cons s, none), (G t).read⟩) := by
  have hnone := h.hold_none hfree
  refine ⟨?_, fun u x o hu => ?_, h.ring, fun hall => ?_, fun p => ?_, h.killed, h.hist⟩
  · rw [views_update View.held]
    refine h.lock.acquire hfree ?_
    show (G t).hold.map _ = none
    rw [ht]
    rfl
  · rcases update_cases hu with ⟨rfl, ⟨⟩⟩ | ⟨-, hu⟩
    · exact ⟨rfl, h.settled hnone⟩
    · cases (hnone u).symm.trans hu
  · have := hall t
    rw [update_self] at this
    cases this
  · exact (h.read p).trans (view_update View.read (by rfl) _).symm

/-- A thread gives it back. -/
theorem release (ht : (G t).hold = some (x, none)) (hheld : s.lock .cons = some t) :
    Inv (s.setLock .cons none) (update G t ⟨none, (G t).read⟩) := by
  have hother : ∀ u, u ≠ t → (G u).hold = none := fun u hut => by
    by_contra hu
    obtain ⟨y, hy⟩ := Option.ne_none_iff_exists'.mp hu
    exact hut (h.eq_of_hold ht hy)
  refine ⟨?_, fun u y o hu => ?_, h.ring, fun _ => (h.cons t x none ht).2, fun p => ?_, h.killed,
    h.hist⟩
  · rw [views_update View.held]
    exact h.lock.release hheld
  · obtain ⟨rfl, ⟨⟩⟩ | ⟨hut, hu⟩ := update_cases hu
    cases (hother u hut).symm.trans hu
  · exact (h.read p).trans (view_update View.read (by rfl) _).symm

/-- The holder of the lock changes the buffer and makes an entry. -/
theorem event {r₀ : Read} (hG : G t = ⟨some (x, o), r₀⟩) {y : Cons} {o' : Option UInt8}
    {e : Event n} (hring : Holds y (replay (e :: s.data.hist)))
    (hlag : Lags o' (procOf t) (e :: s.data.hist)) (hread : ∀ p, current p (e :: s.data.hist) =
      if Sum.inl p = t then r else current p s.data.hist)
    (hkilled : ∀ p, e = .ret p (-1) → (s.proc p).killed = true)
    (hhist : HistOk (e :: s.data.hist)) :
    Inv (log (setCons s y) e) (update G t ⟨some (y, o'), r⟩) := by
  refine ⟨?_, fun u z o hu => ?_, hring, fun hall => ?_, fun p => ?_, fun p hp => ?_, hhist⟩
  · rw [views_update_same View.held (by rw [hG]; rfl)]
    exact h.lock
  · rcases update_cases hu with ⟨rfl, ⟨⟩⟩ | ⟨hut, hu⟩
    · exact ⟨rfl, hlag⟩
    · exact absurd (h.eq_of_hold (by rw [hG]) hu) hut
  · have := hall t
    rw [update_self] at this
    cases this
  · show current p (e :: s.data.hist) = _
    rw [hread]
    by_cases hp : Sum.inl p = t
    · rw [if_pos hp, hp, update_self]
    · rw [if_neg hp, update_of_ne hp]
      exact h.read p
  · rcases List.mem_cons.mp hp with heq | hp
    · exact hkilled p heq.symm
    · exact h.killed p hp

/-- An entry about nobody's read. -/
theorem current_same {y : Option (Cons × Option UInt8)} (hG : G t = ⟨y, r⟩) (q : Fin n) :
    current q s.data.hist = if Sum.inl q = t then r else current q s.data.hist := by
  split_ifs with hq
  · rw [h.read, hq, hG]
  · rfl

/-- An entry about the read of `p`, which was `r`. -/
theorem current_new {p : Fin n} {y : Option (Cons × Option UInt8)} (hG : G (.inl p) = ⟨y, r⟩)
    (f : Read → Read) (q : Fin n) :
    (if p = q then f (current q s.data.hist) else current q s.data.hist) =
      if Sum.inl q = (Sum.inl p : Tid n) then f r else current q s.data.hist := by
  by_cases hq : p = q
  · rw [if_pos hq, if_pos (by rw [hq]), h.read, ← hq, hG]
  · rw [if_neg hq, if_neg (Sum.inl_injective.ne (Ne.symm hq))]

/-- An end of file that a reader has in its hands is not to be delivered. -/
theorem settle {p : Fin n} (ht : (G (.inl p)).hold = some (x, some ctrlD)) :
    Inv s (update G (.inl p) ⟨some (x, none), (G (.inl p)).read⟩) := by
  obtain ⟨hx, hlag, -⟩ := h.cons _ x _ ht
  rw [kept_singleton, if_pos rfl, List.append_nil] at hlag
  refine ⟨?_, fun u z o hu => ?_, h.ring, fun _ => hlag, fun q => ?_, h.killed, h.hist⟩
  · rw [views_update_same View.held (by rw [View.held, View.held, ht]; rfl)]
    exact h.lock
  · rcases update_cases hu with ⟨rfl, ⟨⟩⟩ | ⟨-, hu⟩
    · exact ⟨hx, hlag⟩
    · exact h.cons u z o hu
  · exact (h.read q).trans (view_update View.read (by rfl) _).symm

end Inv

/-! ## The programs keep it -/

section Safe

variable {t : Tid n} {p : Fin n} {x : Cons} {g : View} {r : Read}

/-- The logic of the console. -/
abbrev logic (n : ℕ) : Logic (Tid n) Unit Halt (St n) (Tid n → View) View :=
  localLogic Unit Halt Inv

/-- An action of a process on the process table. -/
theorem safe_own {α : Type} {f : Fin n → St n → α × St n} (hf : ∀ s, Table s (f p s).2) :
    Safe (logic n) (.inl p) (fun _ v => v = g) (mine f) g :=
  safe_mine_same fun s _ h _ _ => ⟨h.table (hf s), rfl⟩

theorem safe_lock (hg : g.hold = none) :
    Safe (logic n) t (fun _ v => ∃ x, v = ⟨some (x, none), g.read⟩)
      (acquire .cons : TM n Unit) g := by
  refine safe_acquire fun s G h hG _ hfree => ⟨_, ?_, cons s, rfl⟩
  subst hG
  exact h.acquire hg hfree

theorem safe_unlock : Safe (logic n) t (fun _ v => v = ⟨none, r⟩) (release .cons : TM n Unit)
    ⟨some (x, none), r⟩ := by
  refine safe_release fun s G h hG _ hheld => ⟨_, ?_, rfl⟩
  have hrel := h.release (by rw [hG]) hheld
  rwa [hG] at hrel

theorem safe_nap : Safe (logic n) (.inl p) (fun _ v => ∃ y, v = ⟨some (y, none), r⟩)
    (nap : TM n Unit) ⟨some (x, none), r⟩ :=
  (safe_own fun s => Table.prepareOf .consr p s).seq fun _ => safe_unlock.seq fun _ =>
    (safe_own fun s => Table.sleepOf p s).seq fun _ => safe_lock rfl

/-- An entry that is made on its own, by the holder of the lock. -/
theorem safe_record {e : Fin n → Event n} {o o' : Option UInt8} {r' : Read}
    (h : ∀ s G, Inv s G → G (.inl p) = ⟨some (x, o), r⟩ →
      Inv (log (setCons s x) (e p)) (update G (.inl p) ⟨some (x, o'), r'⟩)) :
    Safe (logic n) (.inl p) (fun _ v => v = ⟨some (x, o'), r'⟩) (record e) ⟨some (x, o), r⟩ := by
  refine safe_act fun s G hI hG a s' w hdone => ⟨_, ?_, rfl⟩
  cases hdone
  have hx : cons s = x := (hI.cons _ x o (by rw [hG])).1
  have hsame : setCons s x = s := by
    rw [← hx]
    rfl
  have := h s G hI hG
  rwa [hsame] at this

theorem safe_record_inr {e : Fin n → Event n} {k : ℕ} :
    Safe (logic n) (.inr k) (fun _ v => v = g) (record e) g := by
  refine safe_act fun s G hI hG a s' w hdone => ⟨g, ?_, rfl⟩
  cases hdone
  rw [← hG, update_eq_self]
  exact hI

variable {i : ℕ}

/-- The end of a read. -/
theorem safe_end (hret : ∀ l, Holds x l → Returns i r l.queue) :
    Safe (logic n) (.inl p) (fun _ v => v.hold = none) (consolereadEnd i : TM n ℤ)
      ⟨some (x, none), r⟩ := by
  refine Safe.seq (w := ⟨some (x, none), r⟩) (safe_record fun s G h hG => ?_)
    fun _ => safe_unlock.seq fun _ => rfl
  obtain ⟨-, hlag, hring⟩ := h.knows hG
  refine h.event hG hring hlag (h.current_same hG) (fun _ => nofun) ⟨fun _ => ?_, h.hist⟩
  have hread : current p s.data.hist = r := by rw [h.read, hG]
  rw [hread]
  exact hret _ hring

theorem safe_killed :
    Safe (logic n) (.inl p) (fun _ v => v = ⟨some (x, none), r⟩) (killed : TM n Bool)
      ⟨some (x, none), r⟩ := by
  refine safe_mine fun s G h hG _ => ⟨_, ?_, rfl⟩
  by_cases hk : (s.proc p).killed = true
  · obtain ⟨hx, hlag, hring⟩ := h.knows hG
    have hsame : setCons s x = s := by
      rw [← hx]
      rfl
    rw [if_pos hk, ← hsame]
    refine h.event hG hring hlag (h.current_same hG) (fun q hq => ?_)
      ⟨fun hne => absurd rfl hne, h.hist⟩
    cases hq
    exact hk
  · rw [if_neg hk, ← hG, update_eq_self]
    exact h.table (Table.killedOf p s)

/-- A reader takes the first character of the queue. -/
theorem safe_take (hne : x.r ≠ x.w) : Safe (logic n) (.inl p)
      (fun c v => (∃ q L, Holds x ⟨c :: q, L⟩) ∧
        v = ⟨some (x.next, some c), { r with eof := c = ctrlD }⟩)
      (take : TM n UInt8) ⟨some (x, none), r⟩ := by
  refine safe_mine fun s G h hG _ => ?_
  obtain ⟨hx, hlag, hring⟩ := h.knows hG
  obtain ⟨q, hq⟩ : ∃ q, (replay s.data.hist).queue = x.front :: q :=
    List.head?_eq_some_iff.mp (hring.head hne)
  have hcons : Holds x ⟨x.front :: q, (replay s.data.hist).edit⟩ := by
    rw [← hq]
    exact hring
  refine ⟨⟨some (x.next, some x.front), { r with eof := x.front = ctrlD }⟩, ?_,
    ⟨q, (replay s.data.hist).edit, by rw [hx]; exact hcons⟩, ?_⟩
  · rw [hx]
    refine h.event hG ?_ ?_ (h.current_new hG fun r => { r with eof := x.front = ctrlD })
      (fun _ => nofun) ⟨hring.head hne, h.hist⟩
    · show Holds x.next ⟨(replay s.data.hist).queue.tail, (replay s.data.hist).edit⟩
      rw [hq, List.tail_cons]
      exact hcons.next.2
    · have hdel : delivered s.data.hist = kept (removed s.data.hist) := hlag
      refine ⟨?_, List.getLast?_concat⟩
      show delivered s.data.hist ++ _ = kept (removed s.data.hist ++ [(p, x.front)])
      rw [hdel, kept_append]
  · rw [hx]

/-- What a reader has taken is delivered. -/
theorem safe_deliver {c : UInt8} (hc : c ≠ ctrlD) :
    Safe (logic n) (.inl p) (fun _ v => v = ⟨some (x, none), { r with got := r.got ++ [c] }⟩)
      (record (.delivered · c) : TM n Unit) ⟨some (x, some c), r⟩ := by
  refine safe_record fun s G h hG => ?_
  obtain ⟨-, ⟨hlag, -⟩, hring⟩ := h.knows hG
  refine h.event hG hring ?_ (h.current_new hG fun r => { r with got := r.got ++ [c] })
    (fun _ => nofun) h.hist
  show delivered s.data.hist ++ [(p, c)] = kept (removed s.data.hist)
  rw [← hlag, kept_singleton, if_neg hc]

/-- An end of file is put back, if the reader has been given something, or else is gone. -/
theorem safe_eof {q L : List UInt8} (hi : r.got.length = i) (hle : i ≤ r.asked.toNat)
    (hnl : newline ∉ r.got) (hnd : ctrlD ∉ r.got) (hx : Holds x ⟨ctrlD :: q, L⟩) :
    Safe (logic n) (.inl p) (fun _ v => v.hold = none) (consolereadEof i : TM n ℤ)
      ⟨some (x.next, some ctrlD), { r with eof := true }⟩ := by
  have hdrop : newline ∉ r.got.dropLast := fun h => hnl (List.dropLast_subset _ h)
  by_cases hpos : 0 < i
  · refine Safe.seq (w := ⟨some (x, none), { r with eof := false }⟩) ?_ fun _ => ?_
    · refine safe_mine fun s G h hG _ => ⟨_, ?_, rfl⟩
      rw [if_pos hpos]
      obtain ⟨hcons, ⟨hlag, hlast⟩, hring⟩ := h.knows hG
      have hback : x.next.unread = x := by
        show ({ x with r := x.r + 1 - 1 } : Cons) = x
        rw [UInt32.add_sub_cancel]
      rw [hcons, hback]
      refine h.event hG ?_ ?_ (h.current_new hG fun r => { r with eof := false })
        (fun _ => nofun) ⟨hlast, h.hist⟩
      · show Holds x ⟨ctrlD :: (replay s.data.hist).queue, (replay s.data.hist).edit⟩
        rw [hring.unique hx.next.2]
        exact hx
      · show delivered s.data.hist = kept (removed s.data.hist).dropLast
        obtain ⟨l, hl⟩ : ∃ l, removed s.data.hist = l ++ [(p, ctrlD)] :=
          List.getLast?_eq_some_iff.mp hlast
        rw [hl, kept_append, kept_singleton, if_pos rfl, List.append_nil, List.append_nil] at hlag
        rw [hl, List.dropLast_concat]
        exact hlag
    · refine safe_end fun l hl => ⟨?_, ?_, hdrop, hnd, ?_⟩
      · exact congrArg _ hi.symm
      · rwa [hi]
      · refine .inr (.inr (.inr ⟨rfl, ?_, ?_⟩))
        · rintro h0
          rw [h0] at hi
          simp at hi
          omega
        · rw [hl.unique hx]
          rfl
  · obtain rfl : i = 0 := by omega
    rw [List.length_eq_zero_iff] at hi
    refine Safe.seq (w := ⟨some (x.next, none), { r with eof := true }⟩) ?_ fun _ => ?_
    · refine safe_mine fun s G h hG _ => ⟨_, ?_, rfl⟩
      rw [if_neg hpos]
      have hsettle := h.settle (by rw [hG])
      rwa [hG] at hsettle
    · refine safe_end fun l hl => ⟨?_, ?_, hdrop, hnd, ?_⟩
      · rw [hi]
        rfl
      · rw [hi]
        exact Nat.zero_le _
      · exact .inr (.inr (.inl ⟨rfl, hi⟩))

/-- The loops of `consoleread`. -/
theorem safe_consolereadFrom (fuel : ℕ) {n' : ℤ} (hasked : r.asked = n') (hi : r.got.length = i)
    (hle : i ≤ n'.toNat) (hnl : newline ∉ r.got) (hnd : ctrlD ∉ r.got) (heof : r.eof = false) :
    Safe (logic n) (.inl p) (fun _ v => v.hold = none) (consolereadFrom n' fuel i : TM n ℤ)
      ⟨some (x, none), r⟩ := by
  induction fuel generalizing i r x with
  | zero => exact safe_stay
  | succ fuel ih =>
    have hdrop : newline ∉ r.got.dropLast := fun h => hnl (List.dropLast_subset _ h)
    rw [consolereadFrom]
    by_cases hlt : (i : ℤ) < n'
    · rw [if_pos hlt]
      refine Safe.seq_eq (w := ⟨some (x, none), r⟩)
        (safe_mine_same fun s G h hG _ => ⟨h, by rw [(h.knows hG).1], rfl⟩) ?_
      by_cases hempty : x.r = x.w
      · -- the queue is empty
        rw [decide_eq_true hempty, if_pos rfl]
        refine safe_killed.seq fun dead => ?_
        cases dead with
        | true => exact safe_unlock.seq fun _ => rfl
        | false => exact safe_nap.seq_exists fun _ y => ih hasked hi hle hnl hnd heof
      · rw [decide_eq_false hempty, if_neg Bool.false_ne_true]
        refine (safe_take hempty).bind ?_
        rintro c _ ⟨⟨q, L, hx⟩, rfl⟩
        by_cases hc : c = ctrlD
        · rw [if_pos hc]
          subst hc
          rw [decide_eq_true rfl]
          exact safe_eof hi (by rwa [hasked]) hnl hnd hx
        · rw [if_neg hc, decide_eq_false hc]
          refine (safe_deliver hc).seq fun _ => ?_
          have hlen : (r.got ++ [c]).length = i + 1 := by
            rw [List.length_append, hi]
            rfl
          have hnd' : ctrlD ∉ r.got ++ [c] := by
            simpa [hnd] using Ne.symm hc
          by_cases hn : c = newline
          · rw [if_pos hn]
            refine safe_end fun l _ => ⟨?_, ?_, ?_, hnd', ?_⟩
            · exact congrArg _ hlen.symm
            · rw [hlen, hasked]
              omega
            · rwa [List.dropLast_concat]
            · refine .inr (.inl ⟨rfl, ?_⟩)
              rw [← hn]
              exact List.getLast?_concat
          · rw [if_neg hn]
            refine ih hasked hlen (by omega) ?_ hnd' rfl
            simpa [hnl] using Ne.symm hn
    · rw [if_neg hlt]
      refine safe_end fun l _ => ⟨?_, ?_, hdrop, hnd, ?_⟩
      · exact congrArg _ hi.symm
      · rw [hi, hasked]
        exact hle
      · refine .inl ⟨heof, ?_⟩
        rw [hi, hasked]
        omega

/-- A read begins. -/
theorem safe_begin (n' : ℤ) :
    Safe (logic n) (.inl p) (fun _ v => v = ⟨some (x, none), ⟨n', [], false⟩⟩)
      (record (.call · n') : TM n Unit) ⟨some (x, none), r⟩ := by
  refine safe_record fun s G h hG => ?_
  obtain ⟨-, hlag, hring⟩ := h.knows hG
  exact h.event hG hring hlag (h.current_new hG fun _ => ⟨n', [], false⟩) (fun _ => nofun) h.hist

theorem safe_consoleread (n' : ℤ) (fuel : ℕ) (hg : g.hold = none) :
    Safe (logic n) t (fun _ v => v.hold = none) (consoleread n' fuel : TM n ℤ) g := by
  refine (safe_lock hg).seq_exists fun _ x => ?_
  cases t with
  | inr k =>
    -- a processor has no process to read for, and goes no further than an empty read
    refine safe_record_inr.seq fun _ => ?_
    cases fuel with
    | zero => exact safe_stay
    | succ fuel =>
      rw [consolereadFrom]
      by_cases hpos : ((0 : ℕ) : ℤ) < n'
      · rw [if_pos hpos]
        exact safe_mine_inr_bind
      · rw [if_neg hpos]
        exact safe_record_inr.seq fun _ => safe_unlock.seq fun _ => rfl
  | inl p =>
    exact (safe_begin n').seq fun _ => safe_consolereadFrom fuel rfl rfl (Nat.zero_le _)
      List.not_mem_nil List.not_mem_nil rfl

/-- **A character is typed.** -/
theorem safe_consoleintr (c : UInt8) (hg : g.hold = none) :
    Safe (logic n) t (fun _ v => v.hold = none) (consoleintr c : TM n Unit) g := by
  refine (safe_lock hg).seq_exists fun _ x => ?_
  refine Safe.seq (w := ⟨some ((x.intr c).2, none), g.read⟩)
    (safe_always fun s G h hG _ => ⟨_, ?_, rfl⟩) fun wake => ?_
  · obtain ⟨hx, hlag, hring⟩ := h.knows hG
    rw [hx]
    exact h.event hG (hring.intr c) hlag (h.current_same hG) (fun _ => nofun) h.hist
  · refine Safe.seq (w := ⟨some ((x.intr c).2, none), g.read⟩) ?_ fun _ => safe_unlock.mono ?_
    · cases wake with
      | true => exact safe_wakeupFrom_same (fun s G q h => h.table (Table.wakeupOf .consr q s)) _
      | false => rfl
    · rintro - _ rfl
      rfl

/-- **Every call keeps the invariant.** -/
theorem safe_call (y : Call n) (hg : g.hold = none) :
    Safe (logic n) t (fun _ v => v.hold = none) y.code g := by
  cases y with
  | consoleread n' fuel => exact (safe_consoleread n' fuel hg).bind fun _ _ hv => hv
  | consoleintr c => exact safe_consoleintr c hg
  | kkill pid =>
    exact (safe_kkillFrom_same (fun s G q h _ => h.table (Table.markOf t pid q s)) _).seq
      fun _ => hg
  | setkilled =>
    cases t with
    | inr k => exact safe_mine_inr
    | inl p =>
      refine (safe_own fun s => ?_).mono fun _ v hv => hv ▸ hg
      exact (Table.setProc fun _ => rfl).note _
  | yield q =>
    refine (safe_yield fun s G h _ => h.table ?_).mono fun _ v hv => hv ▸ hg
    exact Table.setProc fun hq => hq
  | schedule q =>
    refine (safe_schedule fun s G h _ => h.table ?_).mono fun _ v hv => hv ▸ hg
    exact Table.setProc fun hq => hq

end Safe

theorem inv_start {s : St n} (h : Start s) : Inv s fun _ => ⟨none, ⟨0, [], false⟩⟩ := by
  refine ⟨fun l t => ?_, fun _ _ _ ht => ?_, ?_, fun _ => ?_, fun p => ?_, fun p hp => ?_, ?_⟩
  · rw [h.lock l]
    constructor
    · intro hl
      cases hl
    · intro hl
      cases hl
  · cases ht
  · rw [h.hist]
    exact .empty h.w_eq h.e_eq
  · rw [h.hist]
    rfl
  · rw [h.hist]
    rfl
  · rw [h.hist] at hp
    cases hp
  · rw [h.hist]
    trivial

theorem HistOk.of_append {h₁ h₂ : List (Event n)} (h : HistOk (h₁ ++ h₂)) : HistOk h₂ := by
  induction h₁ with
  | nil => exact h
  | cons e h₁ ih =>
    cases e with
    | typed c => exact ih h
    | call p n' => exact ih h
    | delivered p c => exact ih h
    | took p c => exact ih h.2
    | gaveBack p => exact ih h.2
    | ret p k => exact ih h.2

end Console

open Threads Console

variable {n : ℕ}

/-- **The line discipline of the console.** In every interleaving of input and reads by any number
of processes, whatever the counters of the empty buffer stood at:

* the buffer holds the queue and the line that the characters typed and taken so far amount to,
  and they never have more than `INPUT_BUF_SIZE` characters;
* every character that is taken was the first of the queue, and what has been removed and the queue
  together are all characters that have joined it, each once and in order;
* what has been delivered is what has been removed, to the reader that removed it and without the
  ends of file, whenever nobody is in the middle of a read or an interrupt;
* a read returns how much it was given, after as many bytes as it asked for, right after a newline,
  or at an end of file, which it has removed if it was given nothing and left in front otherwise,
  unless its process was killed. -/
theorem console_line_discipline {s₀ : St n} (h₀ : Start s₀) {t₀ : Tid n}
    {cfg : Config (Tid n) Unit Halt (St n)}
    (hr : Reachable (Console.system n) ((Console.system n).powerOn s₀ t₀) cfg) :
    Holds (cons cfg.shared) (replay cfg.shared.data.hist) ∧
    (replay cfg.shared.data.hist).size ≤ inputBufSize.toNat ∧
    (∀ h₁ h₂ p c, cfg.shared.data.hist = h₁ ++ .took p c :: h₂ →
      (replay h₂).queue.head? = some c) ∧
    (removed cfg.shared.data.hist).map Prod.snd ++ (replay cfg.shared.data.hist).queue =
      committed cfg.shared.data.hist ∧
    (cfg.shared.lock .cons = none →
      Console.delivered cfg.shared.data.hist = kept (removed cfg.shared.data.hist)) ∧
    (∀ h₁ h₂ p k, cfg.shared.data.hist = h₁ ++ .ret p k :: h₂ →
      k = -1 ∧ (cfg.shared.proc p).killed = true ∨
      Returns k (current p h₂) (replay h₂).queue) := by
  obtain ⟨G, h⟩ := inv_of_reachable (S := Console.system n) (fun h => h)
    (fun t x s _ g (hg : g.hold = none) => safe_call x hg) (inv_start h₀) (fun _ => rfl) rfl hr
  refine ⟨h.ring, h.ring.size_le, fun h₁ h₂ p c hh => ?_, h.hist.committed_eq, fun hfree => ?_,
    fun h₁ h₂ p k hh => ?_⟩
  · have hok := h.hist
    rw [hh] at hok
    exact hok.of_append.1
  · exact h.settled (h.hold_none hfree)
  · by_cases hk : k = -1
    · subst hk
      exact .inl ⟨rfl, h.killed p (by rw [hh]; simp)⟩
    · have hok := h.hist
      rw [hh] at hok
      exact .inr (hok.of_append.1 hk)

/-- Two processes, and an empty buffer whose counters are about to wrap. -/
def wrapCons : St 2 where
  proc _ := ⟨.running, none, false, 0, 1, none, true, true, fun _ => false, true⟩
  nextpid := 2
  lock _ := none
  data := ⟨⟨⟨fun _ => 0, 0, 0, true, true⟩,
    ⟨fun _ => 0, 4294967295, 4294967295, 4294967295⟩, 0⟩, []⟩
  hist := []

theorem start_wrapCons : Start wrapCons := ⟨fun _ => rfl, rfl, rfl, rfl⟩

/-- A line is typed, one character of it by mistake, and read. -/
def wrapTyping : List (Move (Tid 2) (Console.Call 2)) :=
  ([104, 120, 127, 105].flatMap fun c => .call (.inr 0) (.consoleintr c) ::
      List.replicate 3 (.act (.inr 0))) ++
    .call (.inr 0) (.consoleintr 13) :: List.replicate 5 (.act (.inr 0)) ++
    .call (.inl 0) (.consoleread 5 10) :: List.replicate 13 (.act (.inl 0))

/-- A line across the wrap of the counters. -/
theorem console_line_discipline_wrap : ∃ cfg, Reachable (Console.system 2)
    ((Console.system 2).powerOn wrapCons (.inr 0)) cfg ∧ (cons cfg.shared).r = 2 ∧
    Console.delivered cfg.shared.data.hist = [(0, 104), (0, 105), (0, 10)] ∧
    Holds (cons cfg.shared) (replay cfg.shared.data.hist) := by
  have hrun : ((Console.system 2).play wrapTyping
      ((Console.system 2).powerOn wrapCons (.inr 0))).any
      (fun cfg => (cons cfg.shared).r = 2 ∧
        Console.delivered cfg.shared.data.hist = [(0, 104), (0, 105), (0, 10)]) = true := by
    decide +kernel
  obtain ⟨cfg, hr, hcons, hdel⟩ := exists_of_play _ hrun
  exact ⟨cfg, hr, hcons, hdel, (console_line_discipline start_wrapCons hr).1⟩

end Process

end TrinityXv6
