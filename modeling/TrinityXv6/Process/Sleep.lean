import TrinityXv6.Process.State

/-!
# The sleep protocol

Sleeping is in two phases. A process that holds a condition lock and finds its condition false
calls `sleep_prepare(chan)`, releases the lock and calls `sleep`. It is marked `SLEEPING` after it
has given up the lock, so a waker may come in between. What makes this safe is that `p->chan` is a
flag that works once: `wakeup` clears it, and `sleep` looks at it.

The system of this module is made of any number of condition locks, each of which protects a value,
and any number of channels, each of which belongs to one lock. A sleeper waits on a channel until a
condition of its own holds of the value behind the lock, and may then change the value. A waker
changes the value in any way and wakes one channel before it releases the lock. `acquiresleep` and
`releasesleep` are such calls, of a value that is a sleep lock.

For every process the state remembers the condition it last waited for and, when the truth of that
condition last changed, which channel the process that changed it went on to wake.

## Main results

* `Process.no_lost_wakeup` — no process sleeps on a condition that a waker of its channel has made
  true; a sleeping process has a channel; a wakeup between the two phases is not slept through
-/

namespace TrinityXv6

namespace Process

open Threads

namespace Sleep

open Function (update update_self update_of_ne update_eq_self)

/-- The values behind the condition locks, and what is remembered about the sleepers. -/
structure Data (n : ℕ) (χ ℓ E : Type) where
  val : ℓ → E
  want : Fin n → Option (χ × (E → Bool))
  source : Fin n → Option χ

variable {n : ℕ} {χ ℓ E : Type} (lockOf : χ → ℓ)

/-- Whether the condition `p` last waited for holds. -/
def Data.holds (d : Data n χ ℓ E) (p : Fin n) : Bool :=
  match d.want p with
  | some (c, g) => g (d.val (lockOf c))
  | none => false

/-- The value behind `l` changes; the process that changes it is going to wake `c`, if anything. -/
def Data.change [DecidableEq ℓ] (d : Data n χ ℓ E) (l : ℓ) (c : Option χ) (f : E → E) :
    Data n χ ℓ E :=
  let d' := { d with val := update d.val l (f (d.val l)) }
  { d' with source := fun p => if d'.holds lockOf p = d.holds lockOf p then d.source p else c }

/-- `p` waits on `c` for `g`. -/
def Data.wish (d : Data n χ ℓ E) (p : Fin n) (c : χ) (g : E → Bool) : Data n χ ℓ E :=
  { d with want := update d.want p (some (c, g)) }

/-- States of the protocol. -/
abbrev St (n : ℕ) (χ ℓ E : Type) := State n χ ℓ (Data n χ ℓ E)

section Code

variable [DecidableEq χ] [DecidableEq ℓ]

/-- The loop of a sleeper, which holds the lock. -/
def waitFrom (c : χ) (g : E → Bool) (take : E → E) : ℕ → K n χ ℓ (Data n χ ℓ E) Unit
  | 0 => stay
  | fuel + 1 => do
    let ok ← mine fun p s => (g (s.data.val (lockOf c)), s.setData (s.data.wish p c g))
    if ok then do
      always fun s => ((), s.setData (s.data.change lockOf (lockOf c) none take))
      release (lockOf c)
    else do
      sleepPrepare c
      release (lockOf c)
      sleep
      acquire (lockOf c)
      waitFrom c g take fuel

/-- A sleeper. -/
def wait (c : χ) (g : E → Bool) (take : E → E) (fuel : ℕ) : K n χ ℓ (Data n χ ℓ E) Unit := do
  acquire (lockOf c)
  waitFrom lockOf c g take fuel

/-- A waker. -/
def wake (c : χ) (f : E → E) : K n χ ℓ (Data n χ ℓ E) Unit := do
  acquire (lockOf c)
  always fun s => ((), s.setData (s.data.change lockOf (lockOf c) (some c) f))
  wakeup c
  release (lockOf c)

/-- What a process or a processor may do. -/
inductive Call (n : ℕ) (χ E : Type) where
  | wait (c : χ) (g : E → Bool) (take : E → E) (fuel : ℕ)
  | wake (c : χ) (f : E → E)
  | kkill (pid : Int32)
  | yield (q : Fin n)
  | schedule (q : Fin n)

/-- `struct sleeplock`, without its own spin lock. -/
structure SleepLock where
  locked : Bool
  pid : Int32

/-- `acquiresleep` -/
def acquiresleep (pid : Int32) (c : χ) (fuel : ℕ) : Call n χ SleepLock :=
  .wait c (fun lk => !lk.locked) (fun _ => ⟨true, pid⟩) fuel

/-- `releasesleep` -/
def releasesleep (c : χ) : Call n χ SleepLock := .wake c fun _ => ⟨false, 0⟩

/-- The program of a call. -/
def Call.code : Call n χ E → K n χ ℓ (Data n χ ℓ E) Unit
  | .wait c g take fuel => Sleep.wait lockOf c g take fuel
  | .wake c f => Sleep.wake lockOf c f
  | .kkill pid => do
    let _ ← Process.kkill pid
    pure ()
  | .yield q => Process.yield q
  | .schedule q => Process.schedule q

/-- Sleepers, wakers, kills and the scheduler, in any order. -/
def system : System (Tid n) Unit Halt (St n χ ℓ E) where
  Call := Call n χ E
  code := Call.code lockOf
  may _ _ _ := True
  resets := False
  reset s := s
  boot := pure ()

instance (t : Tid n) (x : (system lockOf : System _ _ _ (St n χ ℓ E)).Call) (s : St n χ ℓ E) :
    Decidable ((system lockOf).may t x s) := .isTrue trivial

end Code

/-- No lock is held, nobody sleeps and nobody has prepared to. -/
structure Start (s : St n χ ℓ E) : Prop where
  lock : ∀ l, s.lock l = none
  sleeping : ∀ p, (s.proc p).state ≠ .sleeping
  chan : ∀ p, (s.proc p).chan = none
  hist : s.hist = []

/-! ## The invariant -/

/-- What a process or processor knows between two actions: the lock it holds, whom it has still to
visit with a wakeup, the condition it has found false under the lock, and whether it is between
`sleep_prepare` and the end of `sleep`. -/
structure View (n : ℕ) (χ ℓ E : Type) where
  lock : Option ℓ
  due : Option (χ × List (Fin n))
  test : Option (χ × (E → Bool))
  prep : Bool

/-- Nothing held, nothing due. -/
def View.out : View n χ ℓ E := ⟨none, none, none, false⟩

variable [DecidableEq χ]

/-- A sleeper that a waker of its channel has made ready is still to be visited by the waker, who
has the lock. -/
structure Inv (s : St n χ ℓ E) (G : Tid n → View n χ ℓ E) : Prop where
  lock : LockOk s fun t => (G t).lock
  sleeping : ∀ p, (s.proc p).state = .sleeping →
    (G (.inl p)).prep = true ∧ (s.proc p).chan ≠ none
  chan : ∀ p, (s.proc p).chan = if woken p s.hist then none else lastPrepared p s.hist
  test : ∀ p c g, (G (.inl p)).test = some (c, g) → s.data.want p = some (c, g) ∧
    g (s.data.val (lockOf c)) = false ∧ (G (.inl p)).lock = some (lockOf c)
  want : ∀ p c, (G (.inl p)).prep = true → (s.proc p).chan = some c →
    ∃ g, s.data.want p = some (c, g)
  due : ∀ p c, (G (.inl p)).prep = true → (s.proc p).chan = some c → s.data.source p = some c →
    s.data.holds lockOf p = true →
    ∃ t l, (G t).due = some (c, l) ∧ p ∈ l ∧ (G t).lock = some (lockOf c)

variable {lockOf} {s : St n χ ℓ E} {G : Tid n → View n χ ℓ E} {t : Tid n} {p q : Fin n} {c : χ}
  {l : ℓ} {g g' : View n χ ℓ E} {b : Bool}

namespace Inv

/-- A change of one table entry that keeps the channel and puts nobody to sleep. -/
theorem setProc (h : Inv lockOf s G) {v : Proc n χ} (hchan : v.chan = (s.proc q).chan)
    (hstate : v.state = .sleeping → (s.proc q).state = .sleeping) :
    Inv lockOf (s.setProc q v) G := by
  have hc := s.setProc_proj (fun u => u.chan) hchan
  constructor
  · exact h.lock
  · intro p hsl
    rw [hc]
    exact h.sleeping p (State.of_setProc_sleeping hstate hsl)
  · intro p
    rw [hc]
    exact h.chan p
  · exact h.test
  · intro p c hp hpc
    rw [hc] at hpc
    exact h.want p c hp hpc
  · intro p c hp hpc
    rw [hc] at hpc
    exact h.due p c hp hpc

/-- Kills say nothing about sleeping. -/
theorem note_kill (h : Inv lockOf s G) (pid : Int32) : Inv lockOf (s.note (.kill q pid t)) G :=
  ⟨h.lock, h.sleeping, h.chan, h.test, h.want, h.due⟩

omit [DecidableEq χ] in
/-- Who owes a wakeup owes it still after a thread that does not owe it has changed its view. -/
theorem due_update (hdue : ∀ c qs, (G t).due = some (c, qs) → qs = [])
    (h : ∃ u qs, (G u).due = some (c, qs) ∧ p ∈ qs ∧ (G u).lock = some l) :
    ∃ u qs, (update G t g u).due = some (c, qs) ∧ p ∈ qs ∧ (update G t g u).lock = some l := by
  obtain ⟨u, qs, hd, hmem, hul⟩ := h
  have hut : u ≠ t := by
    rintro rfl
    rw [hdue c qs hd] at hmem
    cases hmem
  exact ⟨u, qs, by rwa [update_of_ne hut], hmem, by rwa [update_of_ne hut]⟩

variable (h : Inv lockOf s G)
include h

/-- A thread that owes nobody a wakeup changes its view. What it does to the locks is left open. -/
theorem view {s' : St n χ ℓ E} (hproc : s'.proc = s.proc) (hdata : s'.data = s.data)
    (hhist : s'.hist = s.hist) (hlock : LockOk s' fun u => (update G t g' u).lock)
    (hdue : ∀ c qs, (G t).due = some (c, qs) → qs = []) (htest : g'.test = none)
    (hprep : g'.prep = true → (G t).prep = true)
    (hsl : ∀ p, t = .inl p → (s.proc p).state = .sleeping → g'.prep = true) :
    Inv lockOf s' (update G t g') := by
  have hprep' : ∀ u, (update G t g' u).prep = true → (G u).prep = true := by
    intro u hu
    rcases update_cases hu with ⟨rfl, hnew⟩ | ⟨-, hu⟩
    · exact hprep hnew
    · exact hu
  refine ⟨hlock, fun p hp => ?_, ?_, fun p c g hp => ?_, fun p c hp hpc => ?_,
    fun p c hp hpc hsrc hhold => ?_⟩
  · rw [hproc] at hp ⊢
    refine ⟨?_, (h.sleeping p hp).2⟩
    by_cases hu : Sum.inl p = t
    · rw [hu, update_self]
      exact hsl p hu.symm hp
    · rw [update_of_ne hu]
      exact (h.sleeping p hp).1
  · rw [hproc, hhist]
    exact h.chan
  · rcases update_cases hp with ⟨-, hnew⟩ | ⟨hu, hp⟩
    · cases htest.symm.trans hnew
    · rw [update_of_ne hu, hdata]
      exact h.test p c g hp
  · rw [hproc] at hpc
    rw [hdata]
    exact h.want p c (hprep' _ hp) hpc
  · rw [hproc] at hpc
    rw [hdata] at hsrc hhold
    exact due_update hdue (h.due p c (hprep' _ hp) hpc hsrc hhold)

/-- `sleep_prepare`, after the condition was found false and while the lock is still held. -/
theorem prepare {f : E → Bool} (hG : G (.inl p) = ⟨some (lockOf c), none, some (c, f), false⟩)
    (hr : (s.proc p).state = .running) : Inv lockOf (prepareOf c p s)
      (update G (.inl p) ⟨some (lockOf c), none, none, true⟩) := by
  obtain ⟨hwant, hfalse, -⟩ := h.test p c f (by rw [hG])
  have hholds : s.data.holds lockOf p = false := by
    simp only [Data.holds, hwant, hfalse]
  refine ⟨?_, fun p' hp' => ?_, fun p' => ?_, fun p' c' f' hp' => ?_, fun p' c' hp' hpc => ?_,
    fun p' c' hp' hpc hsrc hhold => ?_⟩
  · rw [views_update_same View.lock (by rw [hG])]
    exact h.lock
  · by_cases hpp : p' = p
    · subst hpp
      rw [prepareOf_proc_self] at hp'
      cases hr.symm.trans hp'
    · rw [prepareOf_proc_of_ne c s hpp] at hp' ⊢
      rw [update_of_ne (Sum.inl_injective.ne hpp)]
      exact h.sleeping p' hp'
  · by_cases hpp : p' = p
    · subst hpp
      rw [prepareOf_proc_self]
      simp [prepareOf, woken, lastPrepared]
    · rw [prepareOf_proc_of_ne c s hpp, h.chan p']
      simp [prepareOf, woken, lastPrepared, Ne.symm hpp]
  · obtain ⟨⟨⟩, ⟨⟩⟩ | ⟨hu, hp'⟩ := update_cases hp'
    rw [update_of_ne hu]
    exact h.test p' c' f' hp'
  · by_cases hpp : p' = p
    · subst hpp
      rw [prepareOf_proc_self] at hpc
      cases hpc
      exact ⟨f, hwant⟩
    · rw [update_of_ne (Sum.inl_injective.ne hpp)] at hp'
      rw [prepareOf_proc_of_ne c s hpp] at hpc
      exact h.want p' c' hp' hpc
  · by_cases hpp : p' = p
    · subst hpp
      have : s.data.holds lockOf p' = true := hhold
      rw [hholds] at this
      cases this
    · rw [update_of_ne (Sum.inl_injective.ne hpp)] at hp'
      rw [prepareOf_proc_of_ne c s hpp] at hpc
      exact due_update (by rw [hG]; nofun) (h.due p' c' hp' hpc hsrc hhold)

theorem sleep (hprep : (G (.inl p)).prep = true) : Inv lockOf (sleepOf p s) G := by
  have hnote : ∀ {s' : St n χ ℓ E}, Inv lockOf s' G → Inv lockOf (s'.note (.slept p)) G :=
    fun h' => ⟨h'.lock, h'.sleeping, h'.chan, h'.test, h'.want, h'.due⟩
  unfold sleepOf
  split_ifs with hc
  · have hchan := s.setProc_proj (v := { s.proc p with state := .sleeping }) Proc.chan rfl
    refine hnote ⟨h.lock, fun p' hp' => ?_, fun p' => ?_, h.test, fun p' c' hp' hpc => ?_,
      fun p' c' hp' hpc => ?_⟩
    · by_cases hpp : p' = p
      · subst hpp
        rw [State.setProc_proc_self]
        exact ⟨hprep, hc⟩
      · rw [State.setProc_proc_of_ne _ _ hpp] at hp' ⊢
        exact h.sleeping p' hp'
    · rw [hchan]
      exact h.chan p'
    · rw [hchan] at hpc
      exact h.want p' c' hp' hpc
    · rw [hchan] at hpc
      exact h.due p' c' hp' hpc
  · exact hnote h

/-- A process that holds the lock looks at its condition. -/
theorem wish {f : E → Bool} {o : Option (χ × (E → Bool))}
    (hG : G (.inl p) = ⟨some (lockOf c), none, none, false⟩)
    (ho : ∀ x, o = some x → x = (c, f) ∧ f (s.data.val (lockOf c)) = false) :
    Inv lockOf (s.setData (s.data.wish p c f))
      (update G (.inl p) ⟨some (lockOf c), none, o, false⟩) := by
  have hwant : ∀ {p'}, p' ≠ p → (s.data.wish p c f).want p' = s.data.want p' := fun hp' =>
    update_of_ne hp' _ _
  refine ⟨?_, fun p' hp' => ?_, h.chan, fun p' c' f' hp' => ?_, fun p' c' hp' hpc => ?_,
    fun p' c' hp' hpc hsrc hhold => ?_⟩
  · rw [views_update_same View.lock (by rw [hG])]
    exact h.lock
  · by_cases hpp : p' = p
    · subst hpp
      have := (h.sleeping p' hp').1
      rw [hG] at this
      cases this
    · rw [update_of_ne (Sum.inl_injective.ne hpp)]
      exact h.sleeping p' hp'
  · rcases update_cases hp' with ⟨⟨⟩, hnew⟩ | ⟨hu, hp'⟩
    · rw [update_self]
      obtain ⟨he, hf⟩ := ho _ hnew
      cases he
      exact ⟨update_self .., hf, rfl⟩
    · rw [update_of_ne hu, State.setData_data, hwant (ne_of_apply_ne Sum.inl hu)]
      exact h.test p' c' f' hp'
  · obtain ⟨-, ⟨⟩⟩ | ⟨hu, hp'⟩ := update_cases hp'
    rw [State.setData_data, hwant (ne_of_apply_ne Sum.inl hu)]
    exact h.want p' c' hp' hpc
  · obtain ⟨-, ⟨⟩⟩ | ⟨hu, hp'⟩ := update_cases hp'
    have hhold' : s.data.holds lockOf p' = true := by
      rw [State.setData_data, Data.holds, hwant (ne_of_apply_ne Sum.inl hu)] at hhold
      exact hhold
    exact due_update (by rw [hG]; nofun) (h.due p' c' hp' hpc hsrc hhold')

/-- The holder of a lock changes the value behind it, and then owes everybody on the channel it is
going to wake a visit. -/
theorem change [DecidableEq ℓ] {o : Option χ} (f : E → E)
    (hG : G t = ⟨some l, none, none, b⟩) (ho : ∀ c, o = some c → lockOf c = l) :
    Inv lockOf (s.setData (s.data.change lockOf l o f))
      (update G t ⟨some l, o.map fun c => (c, List.finRange n), none, b⟩) := by
  have hprep : ∀ u, (update G t ⟨some l, o.map fun c => (c, List.finRange n), none, b⟩
      u).prep = (G u).prep := view_update View.prep (by rw [hG])
  refine ⟨?_, fun p hp => ?_, h.chan, fun p c g hp => ?_, fun p c hp hpc => ?_,
    fun p c hp hpc hsrc hhold => ?_⟩
  · rw [views_update_same View.lock (by rw [hG])]
    exact h.lock
  · rw [hprep]
    exact h.sleeping p hp
  · obtain ⟨-, ⟨⟩⟩ | ⟨hu, hp⟩ := update_cases hp
    rw [update_of_ne hu]
    obtain ⟨hw, hf, hl⟩ := h.test p c g hp
    -- the tester holds its own lock, so the value it looked at is another one
    have hne : lockOf c ≠ l := fun he => hu (h.lock.unique hl (by rw [he, hG]))
    refine ⟨hw, ?_, hl⟩
    show g (update s.data.val l _ (lockOf c)) = false
    rw [update_of_ne hne]
    exact hf
  · rw [hprep] at hp
    exact h.want p c hp hpc
  · rw [hprep] at hp
    rw [State.setData_data] at hsrc hhold
    simp only [Data.change] at hsrc hhold
    split_ifs at hsrc with heq
    · -- nothing has changed for this sleeper
      have hhold' : s.data.holds lockOf p = true := heq.symm.trans hhold
      exact due_update (by rw [hG]; nofun) (h.due p c hp hpc hsrc hhold')
    · refine ⟨t, List.finRange n, ?_, List.mem_finRange p, ?_⟩
      · rw [update_self, hsrc]
        rfl
      · rw [update_self, ho c hsrc]

/-- One turn of a wakeup. -/
theorem wakeup {qs : List (Fin n)} (hG : G t = ⟨some l, some (c, q :: qs), none, b⟩) :
    Inv lockOf (wakeupOf c q s) (update G t ⟨some l, some (c, qs), none, b⟩) := by
  have hprep : ∀ u, (update G t ⟨some l, some (c, qs), none, b⟩ u).prep = (G u).prep :=
    view_update View.prep (by rw [hG])
  refine ⟨?_, fun p hp => ?_, fun p => ?_, fun p c' g hp => ?_, fun p c' hp hpc => ?_,
    fun p c' hp hpc hsrc hhold => ?_⟩
  · rw [views_update_same View.lock (by rw [hG])]
    intro l' u
    rw [wakeupOf_lock]
    exact h.lock l' u
  · obtain ⟨hold, hsame⟩ := of_wakeupOf_sleeping c q s hp
    rw [hprep, hsame]
    exact h.sleeping p hold
  · rw [wakeupOf_hist]
    simp only [woken, lastPrepared]
    by_cases hpq : p = q
    · subst hpq
      rw [wakeupOf_chan, h.chan p]
      by_cases hw : woken p s.hist = true
      · simp [hw]
      · by_cases hlp : lastPrepared p s.hist = some c <;> simp [hw, hlp]
    · rw [wakeupOf_proc_of_ne c q s hpq, h.chan p]
      simp [Ne.symm hpq]
  · obtain ⟨-, ⟨⟩⟩ | ⟨hu, hp⟩ := update_cases hp
    rw [update_of_ne hu, wakeupOf_data]
    exact h.test p c' g hp
  · rw [hprep] at hp
    rw [wakeupOf_data]
    exact h.want p c' hp (of_wakeupOf_chan c q s hpc).1
  · rw [hprep] at hp
    rw [wakeupOf_data] at hsrc hhold
    obtain ⟨hpc, hne⟩ := of_wakeupOf_chan c q s hpc
    obtain ⟨u, qs', hd, hmem, hul⟩ := h.due p c' hp hpc hsrc hhold
    by_cases hu : u = t
    · subst hu
      rw [hG] at hd hul
      cases hd
      have hpq : p ≠ q := fun he => hne he rfl
      exact ⟨u, qs, by rw [update_self], (List.mem_cons.mp hmem).resolve_left hpq,
        by rw [update_self]; exact hul⟩
    · exact ⟨u, qs', by rwa [update_of_ne hu], hmem, by rwa [update_of_ne hu]⟩

end Inv

/-! ## The programs keep the invariant -/

/-- The logic of the protocol. -/
abbrev logic (lockOf : χ → ℓ) : Logic (Tid n) Unit Halt (St n χ ℓ E) (Tid n → View n χ ℓ E)
    (View n χ ℓ E) := localLogic Unit Halt (Inv lockOf)

theorem Start.inv (lockOf : χ → ℓ) (h : Start s) : Inv lockOf s fun _ => View.out := by
  refine ⟨fun l t => ?_, fun p hp => absurd hp (h.sleeping p), fun p => ?_, nofun, nofun, nofun⟩
  · simp [h.lock l, View.out]
  · rw [h.chan, h.hist]
    rfl

theorem safe_wakeupFrom (qs : List (Fin n)) :
    Safe (logic lockOf) t (fun _ v => v = ⟨some l, some (c, []), none, b⟩)
      (wakeupFrom c qs : K n χ ℓ (Data n χ ℓ E) Unit) ⟨some l, some (c, qs), none, b⟩ := by
  induction qs with
  | nil => rfl
  | cons q qs ih =>
    exact Safe.seq (w := ⟨some l, some (c, qs), none, b⟩)
      (safe_always fun s G h hG hr => ⟨_, h.wakeup hG, rfl⟩) fun _ => ih

/-- A process that is marked by `kkill`. -/
theorem Inv.mark (h : Inv lockOf s G) (pid : Int32) : Inv lockOf (markOf t pid q s) G := by
  refine (h.setProc ?_ ?_).note_kill pid
  · exact Proc.rouse_chan _
  · exact fun hs => absurd hs (Proc.rouse_awake _)

variable [DecidableEq ℓ]

/-- Taking a lock ends whatever sleep came before. -/
theorem safe_lock : Safe (logic lockOf) t (fun _ v => v = ⟨some l, none, none, false⟩)
      (acquire l : K n χ ℓ (Data n χ ℓ E) Unit) ⟨none, none, none, b⟩ := by
  refine safe_acquire fun s G h hG hr hl => ⟨_, h.view rfl rfl rfl ?_ ?_ rfl ?_ ?_, rfl⟩
  · rw [views_update View.lock]
    exact h.lock.acquire hl (by rw [hG])
  · rw [hG]
    nofun
  · nofun
  · rintro p rfl hsl
    cases hsl.symm.trans hr

theorem safe_unlock {o : Option (χ × List (Fin n))} (ho : ∀ c qs, o = some (c, qs) → qs = []) :
    Safe (logic lockOf) t (fun _ v => v = ⟨none, none, none, b⟩)
      (release l : K n χ ℓ (Data n χ ℓ E) Unit) ⟨some l, o, none, b⟩ := by
  refine safe_release fun s G h hG hr hl => ⟨_, h.view rfl rfl rfl ?_ ?_ rfl ?_ ?_, rfl⟩
  · rw [views_update View.lock]
    exact h.lock.release hl
  · rwa [hG]
  · rw [hG]
    exact id
  · rintro p rfl hsl
    have := (h.sleeping p hsl).1
    rwa [hG] at this

/-- Between `sleep_prepare` and the end of `sleep` a process holds no lock and owes nothing. -/
theorem safe_waitFrom {f : E → Bool} {take : E → E} (fuel : ℕ) :
    Safe (logic lockOf) (.inl p) (fun _ v => v = View.out)
      (waitFrom lockOf c f take fuel : K n χ ℓ (Data n χ ℓ E) Unit)
      ⟨some (lockOf c), none, none, false⟩ := by
  induction fuel with
  | zero => exact safe_stay
  | succ fuel ih =>
    refine Safe.bind (Q := fun ok v => v = ⟨some (lockOf c), none,
      if ok then none else some (c, f), false⟩)
      (safe_mine fun s G h hG hr => ⟨_, h.wish hG ?_, rfl⟩) ?_
    · intro x hx
      split_ifs at hx with hf
      cases hx
      exact ⟨rfl, by simpa using hf⟩
    · rintro ok - rfl
      cases ok with
      | true =>
        exact Safe.seq (w := ⟨some (lockOf c), none, none, false⟩)
          (safe_always fun s G h hG hr => ⟨_, h.change take hG nofun, rfl⟩) fun _ =>
            safe_unlock nofun
      | false =>
        refine Safe.seq (w := ⟨some (lockOf c), none, none, true⟩)
          (safe_mine fun s G h hG hr => ⟨_, h.prepare hG hr, rfl⟩) fun _ => ?_
        refine (safe_unlock nofun).seq fun _ => ?_
        refine Safe.seq (w := ⟨none, none, none, true⟩)
          (safe_mine_same fun s G h hG hr => ⟨h.sleep (by rw [hG]), rfl⟩) fun _ => ?_
        exact safe_lock.seq fun _ => ih

theorem safe_wake (f : E → E) : Safe (logic lockOf) t (fun _ v => v = View.out)
      (wake lockOf c f : K n χ ℓ (Data n χ ℓ E) Unit) View.out := by
  refine safe_lock.seq fun _ => ?_
  refine Safe.seq (w := ⟨some (lockOf c), some (c, List.finRange n), none, false⟩)
    (safe_always fun s G h hG hr => ⟨_, h.change f hG ?_, rfl⟩) fun _ => ?_
  · rintro c' ⟨⟩
    rfl
  · refine (safe_wakeupFrom _).seq fun _ => safe_unlock ?_
    rintro c' qs ⟨⟩
    rfl

theorem safe_call (x : Call n χ E) :
    Safe (logic lockOf) t (fun _ v => v = View.out) (x.code lockOf) View.out := by
  cases x with
  | wait c f take fuel =>
    refine safe_lock.seq fun _ => ?_
    cases t with
    | inl p => exact safe_waitFrom fuel
    | inr k =>
      cases fuel with
      | zero => exact safe_stay
      | succ fuel => exact safe_mine_inr_bind
  | wake c f => exact safe_wake f
  | kkill pid => exact (safe_kkillFrom_same (fun s G q h _ => h.mark pid) _).seq fun _ => rfl
  | yield q => exact safe_yield fun s G h _ => h.setProc rfl nofun
  | schedule q => exact safe_schedule fun s G h _ => h.setProc rfl nofun

/-- **No lost wakeup.** In every interleaving of sleepers, wakers, kills and the scheduler: while
the condition lock is free, no process sleeps on a channel with a condition that is true and was
last changed by a waker of that channel; every sleeping process has a channel; and once a wakeup of
its channel has gone past a process that has prepared to sleep, `sleep` leaves the table as it
is. -/
theorem no_lost_wakeup (lockOf : χ → ℓ) {s₀ : St n χ ℓ E} (h₀ : Start s₀) {t₀ : Tid n}
    {cfg : Config (Tid n) Unit Halt (St n χ ℓ E)}
    (hr : Reachable (system lockOf) ((system lockOf).powerOn s₀ t₀) cfg) :
    (∀ p c, cfg.shared.lock (lockOf c) = none → (cfg.shared.proc p).state = .sleeping →
      (cfg.shared.proc p).chan = some c →
      ∃ g, cfg.shared.data.want p = some (c, g) ∧
        (cfg.shared.data.source p = some c → g (cfg.shared.data.val (lockOf c)) = false)) ∧
    (∀ p, (cfg.shared.proc p).state = .sleeping → (cfg.shared.proc p).chan ≠ none) ∧
    (∀ p, woken p cfg.shared.hist = true → (sleepOf p cfg.shared).proc = cfg.shared.proc) := by
  obtain ⟨G, h⟩ := inv_of_reachable not_false
    (fun t x s _ g (hg : g = View.out) => by rw [hg]; exact safe_call x) (h₀.inv lockOf)
    (fun _ => rfl) rfl hr
  refine ⟨fun p c hl hsl hc => ?_, fun p hsl => (h.sleeping p hsl).2, fun p hw => ?_⟩
  · have hprep := (h.sleeping p hsl).1
    obtain ⟨g, hg⟩ := h.want p c hprep hc
    refine ⟨g, hg, fun hsrc => ?_⟩
    by_contra htrue
    have hhold : cfg.shared.data.holds lockOf p = true := by
      simpa only [Data.holds, hg, Bool.not_eq_false] using htrue
    -- whoever made the condition true would have to hold the lock still
    obtain ⟨t, qs, -, -, hlock⟩ := h.due p c hprep hc hsrc hhold
    rw [← h.lock, hl] at hlock
    cases hlock
  · have hnone : (cfg.shared.proc p).chan = none := by
      rw [h.chan, if_pos hw]
    simp [sleepOf, hnone]

/-- A running process. -/
def idleProc (n : ℕ) (χ : Type) (pid : Int32) : Proc n χ :=
  ⟨.running, none, false, 0, pid, none, true, true, fun _ => false, true⟩

/-- Three processes and a sleep lock, which the second one holds. -/
def threeProcs : St 3 Unit Unit SleepLock :=
  ⟨fun p => idleProc 3 Unit (Int32.ofNat (p + 1)), 4, fun _ => none,
    ⟨fun _ => ⟨true, 2⟩, fun _ => none, fun _ => none⟩, []⟩

theorem start_threeProcs : Start threeProcs := ⟨fun _ => rfl, fun _ => nofun, fun _ => rfl, rfl⟩

/-- The first process finds the lock held and prepares to sleep. Before it calls `sleep`, the second
one releases the lock and wakes it. -/
def wokenMoves : List (Move (Tid 3) (Call 3 Unit SleepLock)) :=
  .call (.inl 0) (acquiresleep 1 () 3) :: List.replicate 4 (.act (.inl 0)) ++
    .call (.inl 1) (releasesleep ()) :: List.replicate 6 (.act (.inl 1))

/-- The third process is the first to take the lock, and the first one sleeps. -/
def asleepMoves : List (Move (Tid 3) (Call 3 Unit SleepLock)) :=
  .call (.inl 2) (acquiresleep 3 () 1) :: List.replicate 4 (.act (.inl 2)) ++
    List.replicate 6 (.act (.inl 0))

/-- The `sleep` that follows the wakeup does nothing. In the end the first process sleeps, and the
lock is held. -/
theorem no_lost_wakeup_three_procs : ∃ cfg cfg', Reachable (system fun _ => ())
      ((system fun _ => ()).powerOn threeProcs (.inr 0)) cfg ∧
    woken 0 cfg.shared.hist = true ∧ (cfg.shared.data.val ()).locked = false ∧
    (sleepOf 0 cfg.shared).proc = cfg.shared.proc ∧
    Reachable (system fun _ => ()) cfg cfg' ∧ cfg'.shared.lock () = none ∧
    (cfg'.shared.proc 0).state = .sleeping ∧ (cfg'.shared.data.val ()).pid = 3 ∧
    (∃ g, cfg'.shared.data.want 0 = some ((), g) ∧
      (cfg'.shared.data.source 0 = some () → g (cfg'.shared.data.val ()) = false)) ∧
    (cfg'.shared.proc 0).chan ≠ none := by
  have hrun : ((system fun _ => ()).play wokenMoves
      ((system fun _ => ()).powerOn threeProcs (.inr 0))).any (fun cfg =>
        (woken 0 cfg.shared.hist = true ∧ (cfg.shared.data.val ()).locked = false) ∧
        ((system fun _ => ()).play asleepMoves cfg).any (fun cfg' =>
          cfg'.shared.lock () = none ∧ (cfg'.shared.proc 0).state = .sleeping ∧
          (cfg'.shared.data.val ()).pid = 3 ∧ (cfg'.shared.proc 0).chan = some ()) = true) =
        true := by
    decide +kernel
  obtain ⟨cfg, hr, ⟨hw, hfree⟩, hnext⟩ := exists_of_play _ hrun
  obtain ⟨cfg', hr', hl, hs, hpid, hc⟩ := exists_of_play _ hnext
  obtain ⟨h₁, h₂, -⟩ := no_lost_wakeup (fun _ => ()) start_threeProcs (hr.trans hr')
  obtain ⟨-, -, h₃⟩ := no_lost_wakeup (fun _ => ()) start_threeProcs hr
  exact ⟨cfg, cfg', hr, hw, hfree, h₃ 0 hw, hr', hl, hs, hpid, h₁ 0 () hl hs hc, h₂ 0 hs⟩

end Sleep

end Process

end TrinityXv6
