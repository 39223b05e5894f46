import TrinityXv6.Process.Pipe

/-!
# Who sleeps on a pipe

A reader sleeps while the pipe is empty and its write end open, a writer while it is full and its
read end open. Whoever changes the pipe so that somebody could go on wakes the channel before it
gives up `pi->lock`, with one exception: `pipewrite` asks `killed` before every byte, and the exit
for a killed process wakes nobody. A writer that is killed after it has added bytes leaves them
behind without a wakeup, and a reader that slept before sleeps on over a pipe that is not empty.

The mark of such a writer comes between two of its questions, with a byte in between: `late` reads
that off from the history. Everything else holds without a condition.

## Main results

* `Process.Pipe.no_sleep_on_ready` — while the lock is free, nobody sleeps on a pipe it could use,
  unless a writer was killed between two questions
* `Process.Pipe.sleep_on_nonempty` — a reader asleep over a byte, after a writer was killed
-/

namespace TrinityXv6

namespace Process

namespace Pipe

open Threads
open Function (update update_self update_of_ne update_eq_self update_idem)

variable {n : ℕ}

/-- Whether a process that sleeps on a channel of the pipe could go on. -/
def Ready (x : Pipe) : Chan n → Prop
  | .nread => x.nread ≠ x.nwrite ∨ x.writeopen = false
  | .nwrite => x.nwrite ≠ x.nread + pipeSize ∨ x.readopen = false
  | _ => False

/-- Whether `p` is in a call of `pipewrite` and has added a byte since it asked last. -/
def added (p : Fin n) : List (Event n (Chan n)) → Bool
  | .accepted q _ :: h => (q = p) || added p h
  | .tested q :: h => if q = p then false else added p h
  | .writeRet q _ :: h => if q = p then false else added p h
  | _ :: h => added p h
  | [] => false

/-- Whether some writer has ever been marked and added a byte, in either order, after one question
and before the next. -/
def late : List (Event n (Chan n)) → Bool
  | e :: h => (∃ p, marked p (e :: h) = true ∧ added p (e :: h) = true) || late h
  | [] => false

section Late

variable {h : List (Event n (Chan n))} {p : Fin n}

theorem added_cons {e : Event n (Chan n)} (hask : e ≠ .tested p) (hret : ∀ k, e ≠ .writeRet p k)
    (ha : added p h = true) : added p (e :: h) = true := by
  cases e with
  | accepted q b => rw [added, ha, Bool.or_true]
  | tested q =>
    refine (if_neg ?_).trans ha
    rintro rfl
    exact hask rfl
  | writeRet q k =>
    refine (if_neg ?_).trans ha
    rintro rfl
    exact hret k rfl
  | _ => exact ha

theorem late_cons (hl : late h = true) (e : Event n (Chan n)) : late (e :: h) = true := by
  rw [late, hl, Bool.or_true]

theorem late_of_marked (hm : marked p h = true) (ha : added p h = true) : late h = true := by
  cases h with
  | nil => cases hm
  | cons e h => rw [late, decide_eq_true ⟨p, hm, ha⟩, Bool.true_or]

end Late

namespace Wake

/-! ## The invariant -/

/-- How far a writer is between two questions. -/
inductive Mood where
  | calm
  /-- It has asked, and was not killed. -/
  | asked
  /-- It has added a byte since. -/
  | wrote
  /-- It has found that it was killed meanwhile. -/
  | hush

/-- What the history says about a writer. -/
def MoodOk (h : List (Event n (Chan n))) (t : Tid n) : Mood → Prop
  | .calm => True
  | .asked => ∃ p, t = .inl p ∧ .tested p ∈ h
  | .wrote => ∃ p, t = .inl p ∧ .tested p ∈ h ∧ added p h = true
  | .hush => late h = true

/-- A writer that forgets the bytes it has added. -/
def Mood.rest : Mood → Mood
  | .wrote => .asked
  | m => m

/-- A writer that finds out that it is killed. -/
def Mood.dead : Mood → Mood
  | .wrote => .hush
  | m => m

theorem Mood.rest_ne (m : Mood) : m.rest ≠ .wrote := by
  cases m <;> rintro ⟨⟩

theorem MoodOk.rest {h : List (Event n (Chan n))} {t : Tid n} {m : Mood} (hm : MoodOk h t m) :
    MoodOk h t m.rest := by
  cases m with
  | wrote =>
    obtain ⟨p, ht, hask, -⟩ := hm
    exact ⟨p, ht, hask⟩
  | _ => exact hm

/-- An event that does not end what the writer has begun. -/
theorem MoodOk.cons {h : List (Event n (Chan n))} {t : Tid n} {m : Mood} {e : Event n (Chan n)}
    (hm : MoodOk h t m)
    (he : m = .wrote → ∀ p, t = .inl p → e ≠ .tested p ∧ ∀ k, e ≠ .writeRet p k) :
    MoodOk (e :: h) t m := by
  cases m with
  | calm => trivial
  | asked =>
    obtain ⟨p, ht, hask⟩ := hm
    exact ⟨p, ht, .tail e hask⟩
  | wrote =>
    obtain ⟨p, ht, hask, ha⟩ := hm
    exact ⟨p, ht, .tail e hask, added_cons (he rfl p ht).1 (he rfl p ht).2 ha⟩
  | hush => exact late_cons hm e

/-- What a process or processor knows between two actions: the pipe if it holds the lock, whom it
has still to visit with a wakeup, the channel it has prepared to sleep on, and how far it is with
its questions. -/
structure View (n : ℕ) where
  pi : Option Pipe
  due : Option (Chan n × List (Fin n))
  prep : Option (Chan n)
  mood : Mood

/-- Nothing held, nothing due. -/
def View.out : View n := ⟨none, none, none, .calm⟩

/-- The lock that goes with a view. -/
def View.held (v : View n) : Option Lock := v.pi.map fun _ => .pi

/-- A process that sleeps on a pipe it could use is still to be visited by the process that made
it so, which has the lock. -/
structure Inv (s : Kernel n) (G : Tid n → View n) : Prop where
  lock : LockOk s fun t => (G t).held
  pi : ∀ t x, (G t).pi = some x → s.data.pi = x
  sleeping : ∀ p, (s.proc p).state = .sleeping →
    ∃ c, (G (.inl p)).prep = some c ∧ (s.proc p).chan = some c
  chan : ∀ p c, (G (.inl p)).prep = some c → (s.proc p).chan = some c ∨ (s.proc p).chan = none
  mood : ∀ t, MoodOk s.hist t (G t).mood
  /-- Who is killed after a question was marked after it. -/
  mark : ∀ p, (s.proc p).killed = true → .tested p ∈ s.hist → marked p s.hist = true
  due : ∀ p c, (G (.inl p)).prep = some c → (s.proc p).chan = some c → Ready s.data.pi c →
    (∃ t l, (G t).due = some (c, l) ∧ p ∈ l ∧ (G t).held = some .pi) ∨
      c = .nread ∧ late s.hist = true

variable {s : Kernel n} {G : Tid n → View n} {t : Tid n} {p q : Fin n} {c : Chan n} {x : Pipe}
  {g : View n} {o : Option (Chan n × List (Fin n))} {b : Mood}

namespace Inv

variable (h : Inv s G) {o' : Option (Chan n)}
include h

/-- A change of one table entry that keeps the channel and puts nobody to sleep. Who is killed by it
has been marked. -/
theorem setProc {v : Proc n (Chan n)} (hchan : v.chan = (s.proc q).chan)
    (hstate : v.state = .sleeping → (s.proc q).state = .sleeping)
    (hkilled : v.killed = true → (s.proc q).killed = true ∨ marked q s.hist = true) :
    Inv (s.setProc q v) G := by
  have hc := s.setProc_proj (fun u => u.chan) hchan
  refine ⟨h.lock, h.pi, fun p hsl => ?_, fun p c hp => ?_, h.mood, fun p hk hmem => ?_,
    fun p c hp hpc => ?_⟩
  · rw [hc]
    exact h.sleeping p (State.of_setProc_sleeping hstate hsl)
  · rw [hc]
    exact h.chan p c hp
  · rcases update_cases hk with ⟨rfl, hnew⟩ | ⟨-, hk⟩
    · rcases hkilled hnew with hk | hm
      · exact h.mark p hk hmem
      · exact hm
    · exact h.mark p hk hmem
  · rw [hc] at hpc
    exact h.due p c hp hpc

/-- An event. Who asks is not killed, and has forgotten the bytes of the time before. -/
theorem note {e : Event n (Chan n)}
    (hask : ∀ p, e = .tested p → (s.proc p).killed = false ∧ (G (.inl p)).mood ≠ .wrote)
    (hret : ∀ p k, e = .writeRet p k → (G (.inl p)).mood ≠ .wrote) : Inv (s.note e) G := by
  refine ⟨h.lock, h.pi, h.sleeping, h.chan, fun t => ?_, fun p hk hmem => ?_,
    fun p c hp hpc hr => ?_⟩
  · refine (h.mood t).cons ?_
    rintro hm p rfl
    exact ⟨fun he => (hask p he).2 hm, fun k he => hret p k he hm⟩
  · have hne : e ≠ .tested p := by
      intro he
      cases (hask p he).1.symm.trans hk
    exact marked_cons hne (h.mark p hk ((List.mem_cons.mp hmem).resolve_left hne.symm))
  · rcases h.due p c hp hpc hr with hd | ⟨hc, hs⟩
    · exact .inl hd
    · exact .inr ⟨hc, late_cons hs e⟩

/-- A thread takes or gives up the lock, or learns something about its questions. -/
theorem view {s' : Kernel n} (hproc : s'.proc = s.proc) (hdata : s'.data = s.data)
    (hhist : s'.hist = s.hist) (hlock : LockOk s' fun u => (update G t g u).held)
    (hpi : ∀ x, g.pi = some x → s.data.pi = x)
    (hdue : ∀ c qs, (G t).due = some (c, qs) → g.due = some (c, qs) ∧ g.held = (G t).held ∨
      qs = [] ∨ c = .nread ∧ late s.hist = true) (hmood : MoodOk s.hist t g.mood)
    (hprep : ∀ c, g.prep = some c → (G t).prep = some c)
    (hsl : ∀ p, t = .inl p → (s.proc p).state = .sleeping → g.prep = (G t).prep) :
    Inv s' (update G t g) := by
  have hprep' : ∀ u c, (update G t g u).prep = some c → (G u).prep = some c := by
    intro u c hu
    rcases update_cases hu with ⟨rfl, hnew⟩ | ⟨-, hu⟩
    · exact hprep c hnew
    · exact hu
  refine ⟨hlock, fun u x hx => ?_, fun p hp => ?_, fun p c hp => ?_, fun u => ?_, fun p => ?_,
    fun p c hp hpc hr => ?_⟩
  · rw [hdata]
    rcases update_cases hx with ⟨-, hnew⟩ | ⟨-, hx⟩
    · exact hpi x hnew
    · exact h.pi u x hx
  · rw [hproc] at hp ⊢
    obtain ⟨c, hc, hpc⟩ := h.sleeping p hp
    refine ⟨c, ?_, hpc⟩
    by_cases hu : Sum.inl p = t
    · rw [hu, update_self, hsl p hu.symm hp, ← hu]
      exact hc
    · rwa [update_of_ne hu]
  · rw [hproc]
    exact h.chan p c (hprep' _ c hp)
  · rw [hhist]
    by_cases hut : u = t
    · rw [hut, update_self]
      exact hmood
    · rw [update_of_ne hut]
      exact h.mood u
  · rw [hproc, hhist]
    exact h.mark p
  · rw [hproc] at hpc
    rw [hdata] at hr
    rw [hhist]
    rcases h.due p c (hprep' _ c hp) hpc hr with ⟨u, qs, hd, hmem, hul⟩ | hs
    · by_cases hut : u = t
      · subst hut
        rcases hdue c qs hd with ⟨hd', hl'⟩ | rfl | hs
        · exact .inl ⟨u, qs, by rw [update_self, hd'], hmem,
            by rw [update_self, hl', hul]⟩
        · cases hmem
        · exact .inr hs
      · exact .inl ⟨u, qs, by rwa [update_of_ne hut], hmem,
          by rwa [update_of_ne hut]⟩
    · exact .inr hs

/-- `sleep_prepare` on a channel of a pipe that gives no reason to go on. -/
theorem prepare (hG : G (.inl p) = ⟨some x, o, none, b⟩) (hready : ¬ Ready x c)
    (hr : (s.proc p).state = .running) :
    Inv (prepareOf c p s) (update G (.inl p) ⟨some x, o, some c, b⟩) := by
  have hpix : s.data.pi = x := h.pi (.inl p) x (by rw [hG])
  refine ⟨?_, fun u y hy => ?_, fun p' hp' => ?_, fun p' c' hp' => ?_, fun u => ?_,
    fun p' hk hmem => ?_, fun p' c' hp' hpc hrd => ?_⟩
  · rw [views_update_same View.held (by rw [hG]; rfl)]
    exact h.lock
  · rw [view_update View.pi (by rw [hG])] at hy
    exact h.pi u y hy
  · by_cases hpp : p' = p
    · subst hpp
      rw [prepareOf_proc_self] at hp'
      cases hr.symm.trans hp'
    · rw [prepareOf_proc_of_ne c s hpp] at hp' ⊢
      rw [update_of_ne (Sum.inl_injective.ne hpp)]
      exact h.sleeping p' hp'
  · rcases update_cases hp' with ⟨⟨⟩, ⟨⟩⟩ | ⟨hu, hp'⟩
    · rw [prepareOf_proc_self]
      exact .inl rfl
    · rw [prepareOf_proc_of_ne c s (ne_of_apply_ne Sum.inl hu)]
      exact h.chan p' c' hp'
  · rw [view_update View.mood (by rw [hG])]
    exact (h.mood u).cons fun _ _ _ => ⟨nofun, nofun⟩
  · have hsame : ((prepareOf c p s).proc p').killed = (s.proc p').killed :=
      s.setProc_proj (v := { s.proc p with chan := some c }) Proc.killed rfl p'
    rw [hsame] at hk
    exact h.mark p' hk ((List.mem_cons.mp hmem).resolve_left nofun)
  · by_cases hpp : p' = p
    · subst hpp
      rw [prepareOf_proc_self] at hpc
      cases hpc
      have hrd' : Ready s.data.pi c := hrd
      rw [hpix] at hrd'
      exact absurd hrd' hready
    · rw [update_of_ne (Sum.inl_injective.ne hpp)] at hp'
      rw [prepareOf_proc_of_ne c s hpp] at hpc
      rcases h.due p' c' hp' hpc hrd with ⟨u, qs, hd, hmem, hul⟩ | ⟨hc, hs⟩
      · exact .inl ⟨u, qs, by rw [view_update View.due (by rw [hG]), hd], hmem,
          by rw [view_update View.held (by rw [hG]; rfl), hul]⟩
      · exact .inr ⟨hc, late_cons hs _⟩

theorem sleep (hprep : (G (.inl p)).prep = some c) : Inv (sleepOf p s) G := by
  unfold sleepOf
  split_ifs with hc
  · have hpc : (s.proc p).chan = some c := (h.chan p c hprep).resolve_right hc
    have hchan := s.setProc_proj (v := { s.proc p with state := .sleeping }) Proc.chan rfl
    have hI : Inv (s.setProc p { s.proc p with state := .sleeping }) G := by
      refine ⟨h.lock, h.pi, fun p' hp' => ?_, fun p' c' hp' => ?_, h.mood, fun p' hk => ?_,
        fun p' c' hp' hpc' => ?_⟩
      · rw [hchan]
        by_cases hpp : p' = p
        · subst hpp
          exact ⟨c, hprep, hpc⟩
        · rw [State.setProc_proc_of_ne _ _ hpp] at hp'
          exact h.sleeping p' hp'
      · rw [hchan]
        exact h.chan p' c' hp'
      · rw [s.setProc_proj (v := { s.proc p with state := .sleeping }) Proc.killed rfl] at hk
        exact h.mark p' hk
      · rw [hchan] at hpc'
        exact h.due p' c' hp' hpc'
    exact hI.note nofun nofun
  · exact h.note nofun nofun

/-- The holder of the lock changes the pipe; nobody on another channel becomes ready by it. It then
owes everybody on channel `c` a visit. -/
theorem setPi {z : Pipe} (hG : G t = ⟨some x, o, o', b⟩)
    (hother : ∀ c', c' ≠ c → Ready z c' → Ready x c')
    (ho : ∀ c' l, o = some (c', l) → c' = c ∨ l = []) :
    Inv (s.setPi z) (update G t ⟨some z, some (c, List.finRange n), o', b⟩) := by
  have hpix : s.data.pi = x := h.pi t x (by rw [hG])
  have hheld : (G t).held = some .pi := by rw [hG]; rfl
  have honly : ∀ u, (G u).held = some .pi → u = t := fun u hu => h.lock.unique hu hheld
  have hprep : ∀ u, (update G t ⟨some z, some (c, List.finRange n), o', b⟩ u).prep =
      (G u).prep := view_update View.prep (by rw [hG])
  refine ⟨?_, fun u y hy => ?_, fun p hp => ?_, fun p c' hp => ?_, fun u => ?_, h.mark,
    fun p c' hp hpc hrd => ?_⟩
  · rw [views_update_same View.held (by rw [hG]; rfl)]
    exact h.lock
  · rcases update_cases hy with ⟨-, hnew⟩ | ⟨hu, hy⟩
    · exact Option.some.inj hnew
    · exact absurd (honly u (by rw [View.held, hy]; rfl)) hu
  · rw [hprep]
    exact h.sleeping p hp
  · rw [hprep] at hp
    exact h.chan p c' hp
  · rw [view_update View.mood (by rw [hG])]
    exact h.mood u
  · rw [hprep] at hp
    by_cases hc : c' = c
    · subst hc
      exact .inl ⟨t, List.finRange n, by rw [update_self], List.mem_finRange p,
        by rw [update_self]; rfl⟩
    · have hrd' : Ready s.data.pi c' := by
        rw [hpix]
        exact hother c' hc hrd
      rcases h.due p c' hp hpc hrd' with ⟨u, qs, hd, hmem, hul⟩ | hs
      · -- the lock is ours, and what we owe is on channel `c`
        obtain rfl := honly u hul
        rw [hG] at hd
        rcases ho c' qs hd with hcc | rfl
        · exact absurd hcc hc
        · cases hmem
      · exact .inr hs

/-- One turn of a wakeup, by a thread that owes nothing or owes this channel. -/
theorem wakeup {o₁ : Option (Chan n × List (Fin n))} (hG : G t = ⟨some x, o, o', b⟩)
    (ho : ∀ c' l, o = some (c', l) → l = [] ∨ c' = c ∧ ∃ qs, l = q :: qs ∧ o₁ = some (c, qs)) :
    Inv (wakeupOf c q s) (update G t ⟨some x, o₁, o', b⟩) := by
  have hprep : ∀ u, (update G t ⟨some x, o₁, o', b⟩ u).prep = (G u).prep :=
    view_update View.prep (by rw [hG])
  refine ⟨?_, fun u y hy => ?_, fun p hp => ?_, fun p c' hp => ?_, fun u => ?_,
    fun p hk hmem => ?_, fun p c' hp hpc hrd => ?_⟩
  · rw [views_update_same View.held (by rw [hG]; rfl)]
    intro l u
    rw [wakeupOf_lock]
    exact h.lock l u
  · rw [view_update View.pi (by rw [hG])] at hy
    rw [wakeupOf_data]
    exact h.pi u y hy
  · obtain ⟨hold, hsame⟩ := of_wakeupOf_sleeping c q s hp
    rw [hprep, hsame]
    exact h.sleeping p hold
  · rw [hprep] at hp
    by_cases hpq : p = q
    · subst hpq
      rw [wakeupOf_chan]
      split_ifs
      · exact .inr rfl
      · exact h.chan p c' hp
    · rw [wakeupOf_proc_of_ne c q s hpq]
      exact h.chan p c' hp
  · rw [view_update View.mood (by rw [hG]), wakeupOf_hist]
    exact (h.mood u).cons fun _ _ _ => ⟨nofun, nofun⟩
  · rw [wakeupOf_killed] at hk
    rw [wakeupOf_hist] at hmem ⊢
    exact h.mark p hk ((List.mem_cons.mp hmem).resolve_left nofun)
  · rw [hprep] at hp
    rw [wakeupOf_data] at hrd
    rw [wakeupOf_hist]
    obtain ⟨hpc, hne⟩ := of_wakeupOf_chan c q s hpc
    rcases h.due p c' hp hpc hrd with ⟨u, l, hd, hmem, hul⟩ | ⟨hc, hs⟩
    · by_cases hu : u = t
      · subst hu
        rw [hG] at hd
        rcases ho c' l hd with rfl | ⟨rfl, qs, rfl, hqs⟩
        · cases hmem
        · have hpq : p ≠ q := fun he => hne he rfl
          exact .inl ⟨u, qs, by rw [update_self, hqs],
            (List.mem_cons.mp hmem).resolve_left hpq, by rw [update_self]; rfl⟩
      · exact .inl ⟨u, l, by rwa [update_of_ne hu], hmem,
          by rwa [update_of_ne hu]⟩
    · exact .inr ⟨hc, late_cons hs _⟩

end Inv

/-! ## The programs keep the invariant -/

/-- The logic of the wakeups. -/
abbrev logic (n : ℕ) : Logic (Tid n) Unit Halt (Kernel n) (Tid n → View n) (View n) :=
  localLogic Unit Halt Inv

/-- Nothing is owed any more. -/
def Paid (o : Option (Chan n × List (Fin n))) : Prop := ∀ c l, o = some (c, l) → l = []

theorem paid_none : Paid (none : Option (Chan n × List (Fin n))) := nofun

variable {o' : Option (Chan n)} {dst : ℕ → Bool}

/-- Taking the lock ends whatever sleep came before. -/
theorem safe_lock : Safe (logic n) t (fun _ v => ∃ x, v = ⟨some x, none, none, .calm⟩)
      (acquire .pi : KM n Unit) ⟨none, none, o', .calm⟩ := by
  refine safe_acquire fun s G h hG hr hl => ⟨⟨some s.data.pi, none, none, .calm⟩,
    h.view rfl rfl rfl ?_ ?_ ?_ trivial nofun ?_, _, rfl⟩
  · rw [views_update View.held]
    exact h.lock.acquire hl (by rw [hG]; rfl)
  · rintro x ⟨⟩
    rfl
  · rw [hG]
    nofun
  · rintro p rfl hsl
    cases hsl.symm.trans hr

theorem safe_unlock (ho : ∀ c l, o = some (c, l) → l = [] ∨ c = .nread ∧ b = .hush) :
    Safe (logic n) t (fun _ v => v = ⟨none, none, o', .calm⟩)
      (release .pi : KM n Unit) ⟨some x, o, o', b⟩ := by
  refine safe_release fun s G h hG hr hl => ⟨⟨none, none, o', .calm⟩,
    h.view rfl rfl rfl ?_ nofun ?_ trivial ?_ ?_, rfl⟩
  · rw [views_update View.held]
    exact h.lock.release hl
  · intro c qs hd
    rw [hG] at hd
    rcases ho c qs hd with hq | ⟨hc, rfl⟩
    · exact .inr (.inl hq)
    · have hlate := h.mood t
      rw [hG] at hlate
      exact .inr (.inr ⟨hc, hlate⟩)
  · rw [hG]
    exact fun _ => id
  · rintro p rfl -
    rw [hG]

theorem safe_wakeupFrom (qs : List (Fin n)) (ho : Paid o ∨ o = some (c, qs)) :
    Safe (logic n) t (fun _ v => ∃ o₁, v = ⟨some x, o₁, o', b⟩ ∧ Paid o₁)
      (wakeupFrom c qs : KM n Unit) ⟨some x, o, o', b⟩ := by
  induction qs generalizing o with
  | nil =>
    refine ⟨o, rfl, ?_⟩
    rcases ho with ho | rfl
    · exact ho
    · rintro c' l ⟨⟩
      rfl
  | cons q qs ih =>
    rcases ho with ho | rfl
    · exact Safe.seq (w := ⟨some x, o, o', b⟩) (safe_always fun s G h hG hr =>
        ⟨_, h.wakeup hG fun c' l hl => .inl (ho c' l hl), rfl⟩) fun _ => ih (.inl ho)
    · refine Safe.seq (w := ⟨some x, some (c, qs), o', b⟩)
        (safe_always fun s G h hG hr => ⟨_, h.wakeup hG ?_, rfl⟩) fun _ => ih (.inr rfl)
      rintro c' l ⟨⟩
      exact .inr ⟨rfl, qs, rfl, rfl⟩

/-- The holder of the lock learns something about its questions. -/
theorem Inv.setMood (h : Inv s G) (hG : G t = ⟨some x, o, o', b⟩) {m : Mood}
    (hb : MoodOk s.hist t m) : Inv s (update G t ⟨some x, o, o', m⟩) := by
  refine h.view rfl rfl rfl ?_ ?_ ?_ hb ?_ ?_
  · rw [views_update_same View.held (by rw [hG]; rfl)]
    exact h.lock
  · rintro y ⟨⟩
    exact h.pi t x (by rw [hG])
  · intro c qs hd
    rw [hG] at hd ⊢
    exact .inl ⟨hd, rfl⟩
  · rw [hG]
    exact fun _ => id
  · rw [hG]
    exact fun _ _ _ => rfl

theorem Inv.moodOk (h : Inv s G) (hG : G t = ⟨some x, o, o', b⟩) : MoodOk s.hist t b := by
  have hm := h.mood t
  rw [hG] at hm
  exact hm

/-- The end of a call. -/
def Ends (e : Fin n → Event n (Chan n)) : Prop :=
  (∃ k, e = fun q => .writeRet q k) ∨ ∃ k, e = fun q => .readRet q k

/-- The holder of the lock records the end of its call. -/
theorem safe_record {e : Fin n → Event n (Chan n)} (he : Ends e) :
    Safe (logic n) (.inl p) (fun _ v => v = ⟨some x, o, o', b.rest⟩) (record e : KM n Unit)
      ⟨some x, o, o', b⟩ := by
  refine safe_mine fun s G h hG _ => ⟨_, (h.setMood hG (h.moodOk hG).rest).note ?_ ?_, rfl⟩
  · rcases he with ⟨k, rfl⟩ | ⟨k, rfl⟩ <;> rintro q ⟨⟩
  · intro q k hq
    obtain rfl : p = q := by rcases he with ⟨k, rfl⟩ | ⟨k, rfl⟩ <;> cases hq; rfl
    rw [update_self]
    exact b.rest_ne

/-- `killed`, asked by the holder of the lock. -/
theorem safe_killed : Safe (logic n) (.inl p)
      (fun dead v => v = ⟨some x, o, o', if dead then b.dead else .asked⟩) (killed : KM n Bool)
      ⟨some x, o, o', b⟩ := by
  refine safe_mine fun s G h hG _ => ?_
  by_cases hk : (s.proc p).killed = true
  · have hdead : killedOf p s = (true, s) := Prod.ext hk (if_pos hk)
    rw [hdead]
    refine ⟨⟨some x, o, o', b.dead⟩, h.setMood hG ?_, rfl⟩
    have hb := h.moodOk hG
    cases b with
    | wrote =>
      obtain ⟨p, ⟨⟩, hask, ha⟩ := hb
      exact late_of_marked (h.mark p hk hask) ha
    | _ => exact hb
  · have hk := Bool.eq_false_of_not_eq_true hk
    have halive : killedOf p s = (false, s.note (.tested p)) := by
      simp [killedOf, hk]
    rw [halive]
    refine ⟨⟨some x, o, o', .asked⟩, ?_, rfl⟩
    have hcalm : Inv s (update G (.inl p) ⟨some x, o, o', .calm⟩) := h.setMood hG trivial
    have hnote : Inv (s.note (.tested p)) (update G (.inl p) ⟨some x, o, o', .calm⟩) := by
      refine hcalm.note ?_ (by rintro q k ⟨⟩)
      rintro q ⟨⟩
      refine ⟨hk, ?_⟩
      rw [update_self]
      rintro ⟨⟩
    have hasked := hnote.setMood (update_self ..) (m := .asked) ⟨p, rfl, .head _⟩
    rwa [update_idem] at hasked

/-- What the lock holder reads is what it knows. -/
theorem safe_read {α : Type} (f : Pipe → α) :
    Safe (logic n) (.inl p) (fun a v => a = f x ∧ v = ⟨some x, o, o', b⟩)
      (mine fun _ s => (f s.data.pi, s) : KM n α) ⟨some x, o, o', b⟩ := by
  refine safe_mine_same fun s G h hG _ => ⟨h, congrArg f (h.pi (.inl p) x ?_), rfl⟩
  rw [hG]

/-- From `sleep_prepare` to the next hold of the lock. -/
theorem safe_nap (hpaid : Paid o) (hready : ¬ Ready x c) :
    Safe (logic n) (.inl p) (fun _ v => ∃ y, v = ⟨some y, none, none, .calm⟩)
      (do sleepPrepare c; release .pi; sleep; acquire .pi : KM n Unit) ⟨some x, o, none, b⟩ := by
  refine Safe.seq (w := ⟨some x, o, some c, b⟩)
    (safe_mine fun s G h hG hr => ⟨_, h.prepare hG hready hr, rfl⟩) fun _ => ?_
  refine (safe_unlock fun c' l hl => .inl (hpaid c' l hl)).seq fun _ => ?_
  exact Safe.seq (w := ⟨none, none, some c, .calm⟩)
    (safe_mine_same fun s G h hG _ => ⟨h.sleep (by rw [hG]), rfl⟩) fun _ => safe_lock

/-- The holder of the lock changes the pipe. -/
theorem safe_setPi {f : Pipe → Pipe} (hother : ∀ c', c' ≠ c → Ready (f x) c' → Ready x c')
    (ho : ∀ c' l, o = some (c', l) → c' = c ∨ l = []) :
    Safe (logic n) (.inl p) (fun _ v => v = ⟨some (f x), some (c, List.finRange n), none, b⟩)
      (mine fun _ s => ((), s.setPi (f s.data.pi)) : KM n Unit) ⟨some x, o, none, b⟩ := by
  refine safe_mine fun s G h hG hr => ⟨_, ?_, rfl⟩
  rw [h.pi (.inl p) x (by rw [hG])]
  exact h.setPi hG hother ho

/-- A writer that has asked adds a byte. -/
theorem safe_push {ch : UInt8} (hfull : x.full = false)
    (ho : Paid o ∨ o = some (.nread, List.finRange n)) : Safe (logic n) (.inl p)
      (fun _ v => v = ⟨some (x.push ch), some (.nread, List.finRange n), none, .wrote⟩)
      (mine fun p s => ((), (s.setPi (s.data.pi.push ch)).note (.accepted p ch)) : KM n Unit)
      ⟨some x, o, none, .asked⟩ := by
  refine safe_mine fun s G h hG _ =>
    ⟨⟨some (x.push ch), some (.nread, List.finRange n), none, .wrote⟩, ?_, rfl⟩
  obtain ⟨p, ⟨⟩, hask⟩ := h.moodOk hG
  rw [h.pi (.inl p) x (by rw [hG])]
  have hpush := (h.setPi (z := x.push ch) (c := .nread) hG ?_ ?_).note (e := .accepted p ch)
    nofun nofun
  · have hwrote := hpush.setMood (update_self ..) (m := .wrote)
      ⟨p, rfl, .tail _ hask, by simp [added]⟩
    rwa [update_idem] at hwrote
  · intro c' hc' hr
    cases c' with
    | nwrite => exact .inl (of_decide_eq_false hfull)
    | nread => exact absurd rfl hc'
    | _ => exact hr
  · intro c' l hl
    rcases ho with hp | rfl
    · exact .inr (hp c' l hl)
    · cases hl
      exact .inl rfl

/-- A call wakes the other side up, and returns. -/
theorem safe_wakeEnd {k : ℤ} {e : Fin n → Event n (Chan n)} (he : Ends e)
    (ho : Paid o ∨ o = some (c, List.finRange n)) :
    Safe (logic n) (.inl p) (fun _ v => v = View.out)
      (do wakeup c; record e; release .pi; pure k : KM n ℤ) ⟨some x, o, none, b⟩ := by
  refine Safe.bind (safe_wakeupFrom _ ho) ?_
  rintro - - ⟨o₁, rfl, hpaid⟩
  refine (safe_record he).seq fun _ => ?_
  exact (safe_unlock fun c l hl => .inl (hpaid c l hl)).seq fun _ => rfl

/-- What a writer owes at the head of its loop: nothing, or a wakeup of the readers for the bytes it
has added since it asked. -/
def Owes (x : Pipe) (o : Option (Chan n × List (Fin n))) (b : Mood) : Prop :=
  Paid o ∨ o = some (.nread, List.finRange n) ∧ b = .wrote ∧ x.readopen = true

theorem Owes.paid_or (h : Owes x o b) : Paid o ∨ o = some (.nread, List.finRange n) :=
  h.imp_right And.left

/-- The exit that wakes nobody. -/
theorem safe_pipewriteStop (ho : Paid o ∨ o = some (.nread, List.finRange n) ∧ b = .hush) :
    Safe (logic n) (.inl p) (fun _ v => v = View.out) (pipewriteStop : KM n ℤ)
      ⟨some x, o, none, b⟩ := by
  refine (safe_record (.inl ⟨_, rfl⟩)).seq fun _ =>
    Safe.seq (safe_unlock fun c l hl => ?_) fun _ => rfl
  rcases ho with hpaid | ⟨rfl, rfl⟩
  · exact .inl (hpaid c l hl)
  · cases hl
    exact .inr ⟨rfl, rfl⟩

/-- The test at the head of the loop. -/
theorem safe_pipewriteTest (ho : Owes x o b) :
    Safe (logic n) (.inl p) (fun stop v => ∃ b', v = ⟨some x, o, none, b'⟩ ∧
        if stop then Paid o ∨ o = some (.nread, List.finRange n) ∧ b' = .hush
        else x.readopen = true ∧ b' = .asked) (pipewriteTest : KM n Bool) ⟨some x, o, none, b⟩ := by
  refine (safe_read fun y => y.readopen).seq_eq ?_
  cases hopen : x.readopen with
  | true =>
    refine safe_killed.mono ?_
    rintro dead - rfl
    refine ⟨_, rfl, ?_⟩
    cases dead with
    | true => exact ho.imp_right fun ⟨hall, hb, _⟩ => ⟨hall, by rw [hb]; rfl⟩
    | false => exact ⟨rfl, rfl⟩
  | false =>
    refine ⟨b, rfl, .inl (ho.resolve_right ?_)⟩
    rintro ⟨-, -, hopen'⟩
    cases hopen.symm.trans hopen'

theorem safe_pipewriteFrom {src : ℕ → Option UInt8} {n' : ℤ} (fuel i : ℕ) (ho : Owes x o b) :
    Safe (logic n) (.inl p) (fun _ v => v = View.out) (pipewriteFrom src n' fuel i : KM n ℤ)
      ⟨some x, o, none, b⟩ := by
  induction fuel generalizing i o x b with
  | zero => exact safe_stay
  | succ fuel ih =>
    rw [pipewriteFrom]
    by_cases hlt : (i : ℤ) < n'
    · rw [if_pos hlt]
      refine Safe.bind (safe_pipewriteTest ho) ?_
      rintro stop - ⟨b', rfl, hstop⟩
      cases stop with
      | true => exact safe_pipewriteStop hstop
      | false =>
        obtain ⟨hopen, rfl⟩ := hstop
        refine (safe_read fun y => y.full).seq_eq ?_
        cases hfull : x.full with
        | true =>
          refine Safe.seq_exists (f := fun y => ⟨some y, none, none, .calm⟩) ?_ fun _ y =>
            ih i (.inl paid_none)
          refine Safe.bind (safe_wakeupFrom _ ho.paid_or) ?_
          rintro - - ⟨o₁, rfl, hpaid⟩
          refine safe_nap hpaid ?_
          have hf : x.nwrite = x.nread + pipeSize := of_decide_eq_true hfull
          simp [Ready, hf, hopen]
        | false =>
          cases src i with
          | none => exact safe_wakeEnd (.inl ⟨_, rfl⟩) ho.paid_or
          | some ch =>
            exact (safe_push hfull ho.paid_or).seq fun _ => ih (i + 1) (.inr ⟨rfl, rfl, hopen⟩)
    · rw [if_neg hlt]
      exact safe_wakeEnd (.inl ⟨_, rfl⟩) ho.paid_or

theorem safe_pipereadFrom (todo i : ℕ) (ho : Paid o ∨ o = some (.nwrite, List.finRange n)) :
    Safe (logic n) (.inl p) (fun _ v => v = View.out) (pipereadFrom dst todo i : KM n ℤ)
      ⟨some x, o, none, .calm⟩ := by
  induction todo generalizing i o x with
  | zero => exact safe_wakeEnd (.inr ⟨_, rfl⟩) ho
  | succ todo ih =>
    rw [pipereadFrom]
    refine (safe_read fun y => y.empty).seq_eq ?_
    cases hempty : x.empty with
    | true => exact safe_wakeEnd (.inr ⟨_, rfl⟩) ho
    | false =>
      have hne : x.nread ≠ x.nwrite := of_decide_eq_false hempty
      cases dst i with
      | false => exact safe_wakeEnd (.inr ⟨_, rfl⟩) ho
      | true =>
        refine Safe.seq (w := ⟨some x.pop, some (.nwrite, List.finRange n), none, .calm⟩) ?_
          fun _ => ih (i + 1) (.inr rfl)
        refine safe_mine fun s G h hG hr => ⟨_, Inv.note ?_ nofun nofun, rfl⟩
        rw [h.pi (.inl p) x (by rw [hG])]
        refine h.setPi hG ?_ ?_
        · intro c' hc' hr
          cases c' with
          | nread => exact .inl hne
          | nwrite => exact absurd rfl hc'
          | _ => exact hr
        · intro c' l hl
          rcases ho with hp | rfl
          · exact .inr (hp c' l hl)
          · cases hl
            exact .inl rfl

theorem safe_pipereadWait {n' : ℤ} (fuel : ℕ) :
    Safe (logic n) (.inl p) (fun _ v => v = View.out) (pipereadWait dst n' fuel : KM n ℤ)
      ⟨some x, none, none, .calm⟩ := by
  induction fuel generalizing x with
  | zero => exact safe_stay
  | succ fuel ih =>
    rw [pipereadWait]
    refine (safe_read fun y => y.empty && y.writeopen).seq_eq ?_
    cases hwait : x.empty && x.writeopen with
    | true =>
      obtain ⟨hempty, hopen⟩ := (Bool.and_eq_true _ _).mp hwait
      have he : x.nread = x.nwrite := of_decide_eq_true hempty
      refine Safe.bind safe_killed ?_
      rintro dead - rfl
      cases dead with
      | true =>
        exact (safe_record (.inr ⟨_, rfl⟩)).seq fun _ =>
          (safe_unlock (o := none) nofun).seq fun _ => rfl
      | false =>
        refine (safe_nap paid_none ?_).seq_exists fun _ y => ih
        simp [Ready, he, hopen]
    | false => exact safe_pipereadFrom _ _ (.inl paid_none)

/-- The end of `pipeclose`. -/
theorem safe_closed {f : Pipe → Pipe} (hother : ∀ c', c' ≠ c → Ready (f x) c' → Ready x c') :
    Safe (logic n) (.inl p) (fun _ v => v = View.out)
      (do mine fun _ s => ((), s.setPi (f s.data.pi)); wakeup c; release .pi : KM n Unit)
      ⟨some x, none, none, .calm⟩ := by
  refine (safe_setPi (o := none) hother nofun).seq fun _ => ?_
  refine Safe.bind (safe_wakeupFrom _ (.inr rfl)) ?_
  rintro - - ⟨o, rfl, hpaid⟩
  exact safe_unlock fun c l hl => .inl (hpaid c l hl)

theorem safe_pipeclose (writable : Bool) :
    Safe (logic n) (.inl p) (fun _ v => v = View.out) (pipeclose writable : KM n Unit)
      View.out := by
  refine safe_lock.seq_exists fun _ x => ?_
  cases writable with
  | true =>
    refine safe_closed (f := fun y => { y with writeopen := false })
      fun c' hc' hr => ?_
    cases c' with
    | nread => exact absurd rfl hc'
    | _ => exact hr
  | false =>
    refine safe_closed (f := fun y => { y with readopen := false })
      fun c' hc' hr => ?_
    cases c' with
    | nwrite => exact absurd rfl hc'
    | _ => exact hr

/-- A process that is marked by `kkill`. -/
theorem Inv.kill (h : Inv s G) (pid : Int32) : Inv (markOf t pid q s) G := by
  refine (h.note (e := .kill q pid t) nofun nofun).setProc ?_ ?_ fun _ => .inr ?_
  · exact Proc.rouse_chan _
  · exact fun hs => absurd hs (Proc.rouse_awake _)
  · simp [marked]

theorem safe_recordCall {e : Fin n → Event n (Chan n)} (he : ∀ q r, e q ≠ .tested r)
    (hret : ∀ q r k, e q ≠ .writeRet r k) :
    Safe (logic n) (.inl p) (fun _ v => v = g) (record e : KM n Unit) g :=
  safe_mine_same fun _ _ h _ _ =>
    ⟨h.note (fun q hq => absurd hq (he p q)) fun q k hq => absurd hq (hret p q k), rfl⟩

theorem safe_call (y : Call n) : Safe (logic n) t (fun _ v => v = View.out) y.code View.out := by
  cases y with
  | pipewrite src n' fuel =>
    refine Safe.seq (w := View.out) ?_ fun _ => rfl
    cases t with
    | inr k => exact safe_mine_inr_bind
    | inl p =>
      exact (safe_recordCall (by rintro _ _ ⟨⟩) (by rintro _ _ _ ⟨⟩)).seq fun _ =>
        safe_lock.seq_exists fun _ x => safe_pipewriteFrom fuel 0 (.inl paid_none)
  | piperead dst n' fuel =>
    refine Safe.seq (w := View.out) ?_ fun _ => rfl
    cases t with
    | inr k => exact safe_mine_inr_bind
    | inl p =>
      exact (safe_recordCall (by rintro _ _ ⟨⟩) (by rintro _ _ _ ⟨⟩)).seq fun _ =>
        safe_lock.seq_exists fun _ x => safe_pipereadWait fuel
  | pipeclose writable =>
    cases t with
    | inr k =>
      refine safe_lock.seq_exists fun _ x => ?_
      cases writable <;> exact safe_mine_inr_bind
    | inl p => exact safe_pipeclose writable
  | kkill pid => exact (safe_kkillFrom_same (fun s G q h _ => h.kill pid) _).seq fun _ => rfl
  | setkilled =>
    cases t with
    | inr k => exact safe_mine_inr
    | inl p =>
      refine safe_mine_same fun s G h _ _ =>
        ⟨(h.note (e := .fault p) ?_ ?_).setProc ?_ ?_ fun _ => .inr ?_, rfl⟩
      · rintro q ⟨⟩
      · rintro q k ⟨⟩
      · rfl
      · exact id
      · simp [marked]
  | yield q => exact safe_yield fun s G h _ => h.setProc rfl (by rintro ⟨⟩) .inl
  | schedule q => exact safe_schedule fun s G h _ => h.setProc rfl (by rintro ⟨⟩) .inl

theorem inv_start (h : Start s) : Inv s fun _ => View.out := by
  refine ⟨fun l t => ?_, nofun, fun p hp => absurd hp (h.sleeping p), nofun, fun _ => trivial,
    fun p _ hmem => ?_, nofun⟩
  · simp [h.lock l, View.held, View.out]
  · rw [h.hist] at hmem
    cases hmem

end Wake

/-- **Nobody sleeps on a pipe it could use.** In every interleaving of readers, writers, closes and
kills on one pipe in which no writer was marked between two of its questions with a byte in between:
while `pi->lock` is free, no process sleeps on `&pi->nread` with a byte in the pipe or the write end
closed. In every interleaving at all, none sleeps on `&pi->nwrite` with room in the pipe or the read
end closed. -/
theorem no_sleep_on_ready {s₀ : Kernel n} (h₀ : Start s₀) {t₀ : Tid n}
    {cfg : Config (Tid n) Unit Halt (Kernel n)}
    (hr : Reachable (system n) ((system n).powerOn s₀ t₀) cfg)
    (hlock : cfg.shared.lock .pi = none) (p : Fin n)
    (hsleep : (cfg.shared.proc p).state = .sleeping) :
    ((cfg.shared.proc p).chan = some .nread → late cfg.shared.hist = false →
      cfg.shared.data.pi.nread = cfg.shared.data.pi.nwrite ∧
        cfg.shared.data.pi.writeopen = true) ∧
    ((cfg.shared.proc p).chan = some .nwrite →
      cfg.shared.data.pi.nwrite = cfg.shared.data.pi.nread + pipeSize ∧
        cfg.shared.data.pi.readopen = true) := by
  obtain ⟨G, h⟩ := inv_of_reachable not_false
    (fun t x s _ g (hg : g = Wake.View.out) => by rw [hg]; exact Wake.safe_call x)
    (Wake.inv_start h₀)
    (fun _ => rfl) rfl hr
  obtain ⟨c, hprep, hc⟩ := h.sleeping p hsleep
  have hfree : ∀ t, (G t).held ≠ some .pi := by
    intro t ht
    rw [← h.lock, hlock] at ht
    cases ht
  have hready : Ready cfg.shared.data.pi c → c = .nread ∧ late cfg.shared.hist = true := by
    intro hrd
    rcases h.due p c hprep hc hrd with ⟨t, l, -, -, ht⟩ | hs
    · exact absurd ht (hfree t)
    · exact hs
  constructor
  · intro hcn hlate
    obtain rfl : c = .nread := Option.some.inj (hc.symm.trans hcn)
    have hnot : ¬ Ready cfg.shared.data.pi (.nread : Chan n) := by
      intro hrd
      cases hlate.symm.trans (hready hrd).2
    simpa [Ready] using hnot
  · intro hcn
    obtain rfl : c = .nwrite := Option.some.inj (hc.symm.trans hcn)
    have hnot : ¬ Ready cfg.shared.data.pi (.nwrite : Chan n) := by
      intro hrd
      cases (hready hrd).1
    simpa [Ready] using hnot

/-- Processes with the pids 1, 2 and 3, and a new pipe. -/
def threeProcs : Kernel 3 where
  proc p := ⟨.running, none, false, 0, Int32.ofNat (p + 1), none, true, true, fun _ => false, true⟩
  nextpid := 4
  lock _ := none
  data := ⟨⟨fun _ => 0, 0, 0, true, true⟩, ⟨fun _ => 0, 0, 0, 0⟩, 0⟩
  hist := []

theorem start_threeProcs : Start threeProcs :=
  ⟨fun _ => rfl, fun _ => nofun, rfl, rfl⟩

/-- Process 0 reads from the empty pipe and goes to sleep. -/
def readerSleeps : List (Move (Tid 3) (Call 3)) :=
  .call (.inl 0) (.piperead (fun _ => true) 1 2) :: List.replicate 7 (.act (.inl 0))

/-- Process 1 writes a byte and process 2 kills it afterwards; process 0 reads the byte. -/
def byteRead : List (Move (Tid 3) (Call 3)) :=
  .call (.inl 1) (.pipewrite (fun _ => some 7) 1 2) :: List.replicate 11 (.act (.inl 1)) ++
    .call (.inl 2) (.kkill 2) :: List.replicate 2 (.act (.inl 2)) ++
    .call (.inl 0) (.piperead (fun _ => true) 1 2) :: List.replicate 10 (.act (.inl 0))

/-- A reader that sleeps after the byte of a killed writer was read: the kill was not late. -/
theorem no_sleep_on_ready_empty : ∃ cfg, Reachable (system 3)
    ((system 3).powerOn threeProcs (.inr 0)) cfg ∧ (cfg.shared.proc 0).state = .sleeping ∧
    (cfg.shared.proc 1).killed = true ∧ cfg.shared.data.pi.nread = 1 ∧
    cfg.shared.data.pi.nread = cfg.shared.data.pi.nwrite := by
  have hrun : ((system 3).play (byteRead ++ readerSleeps)
      ((system 3).powerOn threeProcs (.inr 0))).any
      (fun cfg => cfg.shared.lock .pi = none ∧ (cfg.shared.proc 0).state = .sleeping ∧
        (cfg.shared.proc 0).chan = some .nread ∧ late cfg.shared.hist = false ∧
        (cfg.shared.proc 1).killed = true ∧ cfg.shared.data.pi.nread = 1) = true := by
    decide +kernel
  obtain ⟨cfg, hr, hl, hs, hc, hlate, hk, hread⟩ := exists_of_play _ hrun
  exact ⟨cfg, hr, hs, hk, hread, ((no_sleep_on_ready start_threeProcs hr hl 0 hs).1 hc hlate).1⟩

/-- Process 1 writes two bytes. It has added the first one when process 2 kills it, and leaves. -/
def writerKilled : List (Move (Tid 3) (Call 3)) :=
  .call (.inl 1) (.pipewrite (fun _ => some 7) 2 3) :: List.replicate 6 (.act (.inl 1)) ++
    .call (.inl 2) (.kkill 2) :: List.replicate 2 (.act (.inl 2)) ++
    List.replicate 4 (.act (.inl 1))

/-- A reader sleeps on over a pipe with a byte in it: both ends are open, the lock is free, and the
writer that added the byte is gone. -/
theorem sleep_on_nonempty : ∃ cfg, Reachable (system 3)
    ((system 3).powerOn threeProcs (.inr 0)) cfg ∧ cfg.shared.lock .pi = none ∧
    (cfg.shared.proc 0).state = .sleeping ∧ (cfg.shared.proc 0).chan = some .nread ∧
    cfg.shared.data.pi.nread ≠ cfg.shared.data.pi.nwrite ∧
    (cfg.shared.proc 1).killed = true :=
  exists_of_play (readerSleeps ++ writerKilled) (by decide +kernel)

end Pipe

end Process

end TrinityXv6
