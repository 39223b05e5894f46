import TrinityXv6.Sched.Invariant

/-!
# Interrupts, locks and the process table

Each action keeps the invariant of the stacks. An action changes the view of the code that runs it,
and no other.
-/

namespace TrinityXv6

namespace Sched

open Threads
open List
open Process (ProcState Proc)
open Function (update update_self update_of_ne)

variable {n : ℕ} {κ ℓ χ : Type} {s s' : State n κ ℓ χ} {V V' : Views n κ ℓ} {t u : Thread n κ}
  {c x : κ} {p q : Fin n} {l : Lock n ℓ} {v : View n κ ℓ} {P : Place n κ} {w : Proc n (Chan n χ)}

/-! ## What a step leaves alone -/

/-- Processors are where they were, and schedulers have picked what they had. -/
theorem Places.congr_pick (h : Places s V)
    (hpick : ∀ x, (V' (.sched x)).place.pick = (V (.sched x)).place.pick)
    (haway : ∀ x q, (V' (.sched x)).place = .away q ↔ (V (.sched x)).place = .away q)
    (hcpuOf : s'.cpuOf = s.cpuOf) (hproc : ∀ x, (s'.cpu x).proc = (s.cpu x).proc) :
    Places s' V' where
  one := by
    rw [hcpuOf]
    exact h.one
  home := by
    rw [hcpuOf]
    exact h.home
  proc x q := by rw [hproc, hpick, h.proc]
  unique h₁ h₂ := by
    rw [hpick] at h₁ h₂
    exact h.unique h₁ h₂
  guest hq := by
    rw [hcpuOf] at hq
    exact (haway _ _).mpr (h.guest hq)
  away h₁ h₂ := by
    rw [haway] at h₁
    rw [hcpuOf] at h₂ ⊢
    exact h.away h₁ h₂
  here h₁ := by
    rw [hcpuOf]
    exact h.here fun q hq => h₁ q ((haway _ q).mpr hq)

theorem Places.congr (h : Places s V) (hpl : ∀ u, (V' u).place = (V u).place)
    (hcpuOf : s'.cpuOf = s.cpuOf) (hproc : ∀ x, (s'.cpu x).proc = (s.cpu x).proc) : Places s' V' :=
  h.congr_pick (fun x => by rw [hpl]) (fun x q => by rw [hpl]) hcpuOf hproc

theorem Locks.congr (h : Locks s V) (hheld : ∀ u, (V' u).held = (V u).held)
    (hcpuOf : s'.cpuOf = s.cpuOf) (hlock : s'.lock = s.lock) : Locks s' V' := by
  intro l x
  simp only [hlock, hcpuOf, hheld]
  exact h l x

/-- Processes are where they were and in the states they were in, and schedulers are about to
switch to what they were about to switch to. -/
theorem States.congr_next (h : States s V) (hpl : ∀ q, (V' (.proc q)).place = (V (.proc q)).place)
    (hnext : ∀ x, (V' (.sched x)).place.next = (V (.sched x)).place.next)
    (hcpuOf : s'.cpuOf = s.cpuOf) (hctx : ∀ q, s'.ctx (.proc q) = s.ctx (.proc q))
    (hstate : ∀ q, (s'.proc q).state = (s.proc q).state) : States s' V' where
  on hc := by
    rw [hcpuOf] at hc
    rw [hstate, hpl, h.on hc]
  loading hp := by
    rw [hnext] at hp
    unfold Loadable
    rw [hcpuOf, hstate, hpl, hctx]
    exact h.loading hp
  off hc hp := by
    rw [hcpuOf] at hc
    simp only [hnext] at hp
    unfold Resting Loadable
    rw [hstate, hpl, hctx]
    exact h.off hc hp

theorem States.congr (h : States s V) (hpl : ∀ u, (V' u).place = (V u).place)
    (hcpuOf : s'.cpuOf = s.cpuOf) (hctx : s'.ctx = s.ctx)
    (hstate : ∀ q, (s'.proc q).state = (s.proc q).state) : States s' V' :=
  h.congr_next (fun q => hpl _) (fun x => by rw [hpl]) hcpuOf (fun q => by rw [hctx]) hstate

/-- A stack that a processor is on. -/
theorem State.on_of_eq (h : s.cpuOf t = some c) : s.cpuOf t ≠ none := by
  rw [h]
  rintro ⟨⟩

/-- Another stack is on another processor. -/
theorem Places.ne_cpu (h : Places s V) (ht : s.cpuOf t = some c) (hu : s.cpuOf u = some x)
    (hut : u ≠ t) : x ≠ c := by
  rintro rfl
  exact hut (h.one hu ht)

theorem proc_ne (h : q ≠ p) : (.proc q : Thread n κ) ≠ .proc p := fun heq => h (Thread.proc.inj heq)

theorem sched_ne (h : x ≠ c) : (.sched x : Thread n κ) ≠ .sched c := fun heq =>
  h (Thread.sched.inj heq)

theorem Place.pick_of_next (h : P.next = some p) : P.pick = some p := by
  cases P <;> first | exact h | cases h

/-- Places of code that takes and gives up locks. -/
def Place.Plain : Place n κ → Prop
  | .run => True
  | .leaving _ => True
  | _ => False

theorem Place.Plain.ne_out (h : P.Plain) : P ≠ .out := by
  rintro rfl
  exact h

theorem Place.Plain.ne_parked (h : P.Plain) : P ≠ .parked := by
  rintro rfl
  exact h

theorem Place.Plain.ne_away (h : P.Plain) (q : Fin n) : P ≠ .away q := by
  rintro rfl
  exact h

theorem Place.Plain.cases (h : P.Plain) : P = .run ∨ ∃ st, P = .leaving st := by
  cases P with
  | run => exact .inl rfl
  | leaving st => exact .inr ⟨st, rfl⟩
  | _ => exact h.elim

/-- A plain place, with another depth. -/
theorem Shape.depth {d : ℕ} (h : Shape t v) (hp : v.place.Plain) (hd : v.held.length ≤ d) :
    Shape t { v with depth := d } := by
  unfold Shape at h ⊢
  rcases hp.cases with hpl | ⟨st, hpl⟩
  · simp only [hpl] at h ⊢
    exact ⟨hd, h.2⟩
  · simp only [hpl] at h ⊢
    obtain ⟨q, hq, -, hrest⟩ := h
    exact ⟨q, hq, hd, hrest⟩

theorem Shape.length_le (h : Shape t v) (hp : v.place.Plain) :
    v.held.length ≤ v.depth ∧ v.held.Nodup := by
  unfold Shape at h
  rcases hp.cases with hpl | ⟨st, hpl⟩
  · simp only [hpl] at h
    exact h
  · simp only [hpl] at h
    obtain ⟨q, -, h₁, h₂, -⟩ := h
    exact ⟨h₁, h₂⟩

variable [DecidableEq κ]

/-- Interrupts are not touched, and code that has yet to find its `intena` stays where it is. -/
theorem Irqs.congr (h : Irqs s V) (hdepth : ∀ u, (V' u).depth = (V u).depth)
    (hie : ∀ u, (V' u).ie = (V u).ie) (hcpuOf : s'.cpuOf = s.cpuOf)
    (hcpu : ∀ x, (s'.cpu x).noff = (s.cpu x).noff ∧ (s'.cpu x).sie = (s.cpu x).sie ∧
      (s'.cpu x).intena = (s.cpu x).intena)
    (hopened : ∀ u, (V u).place ≠ .out → opened u s'.hist = opened u s.hist)
    (hout : ∀ u, (V u).place = .out → (V' u).place = .out)
    (hparked : ∀ u, (V u).place = .parked → (V' u).place = .parked)
    (haway : ∀ u q, (V u).place = .away q → (V' u).place = .away q) : Irqs s' V' where
  noff ht := by
    rw [hcpuOf] at ht
    rw [(hcpu _).1, hdepth, h.noff ht]
  sie ht := by
    rw [hcpuOf] at ht
    rw [(hcpu _).2.1, hdepth, hie, h.sie ht]
  intena ht hd hp ha := by
    rw [hcpuOf] at ht
    rw [hdepth] at hd
    rw [(hcpu _).2.2, hie]
    exact h.intena ht hd (fun hp' => hp (hparked _ hp')) fun q hq => ha q (haway _ q hq)
  nest hp := by
    have hp' := fun hp' => hp (hout _ hp')
    rw [hopened _ hp', hdepth, h.nest hp']
  outer hp hw := by
    have hp' := fun hp' => hp (hout _ hp')
    rw [hopened _ hp'] at hw
    rw [hie, h.outer hp' hw]
  calm hd := by
    rw [hdepth] at hd
    rw [hie, h.calm hd]

theorem Ctxs.congr (h : Ctxs s V) (hpl : ∀ u, (V' u).place = (V u).place)
    (hcpuOf : s'.cpuOf = s.cpuOf) (hctx : s'.ctx = s.ctx) (hentry : s'.entry = s.entry)
    (hopened : ∀ q, (V (.proc q)).place = .out →
      opened (.proc q) s'.hist = opened (.proc q) s.hist) :
    Ctxs s' V' where
  pinned hp := by
    rw [hpl] at hp
    rw [hcpuOf, h.pinned hp]
  switching hp := by
    rw [hpl] at hp
    rw [hctx, h.switching hp]
  loading hp := by
    rw [hpl] at hp
    rw [hctx, h.loading hp]
  parked hp hc := by
    rw [hpl] at hp
    rw [hcpuOf] at hc
    rw [hctx, h.parked hp hc]
  away hp hc := by
    rw [hpl] at hp
    rw [hcpuOf] at hc
    rw [hctx, h.away hp hc]
  entry q := by rw [hentry, hcpuOf, hpl, h.entry]
  born hp hq := by
    rw [hpl] at hp
    rw [hentry, hcpuOf, hctx] at hq
    rw [hopened _ hp, h.born hp hq]

theorem shape_update (h : ∀ u, Shape u (V u)) {v : View n κ ℓ} (hv : Shape t v) (u : Thread n κ) :
    Shape u (update V t v u) := by
  by_cases hu : u = t
  · subst hu
    rwa [update_self]
  · rw [update_of_ne hu]
    exact h u

/-- An action that changes locks, and views only in ways that the other parts of the invariant do
not look at. -/
theorem Core.congr_locks (h : Core s V) (hshape : ∀ u, Shape u (V' u)) (hlocks : Locks s' V')
    (hpl : ∀ u, (V' u).place = (V u).place) (hdepth : ∀ u, (V' u).depth = (V u).depth)
    (hie : ∀ u, (V' u).ie = (V u).ie) (hcpuOf : s'.cpuOf = s.cpuOf) (hcpu : s'.cpu = s.cpu)
    (hctx : s'.ctx = s.ctx) (hentry : s'.entry = s.entry)
    (hopened : ∀ u, opened u s'.hist = opened u s.hist)
    (hstate : ∀ q, (s'.proc q).state = (s.proc q).state) : Core s' V' where
  shape := hshape
  places := h.places.congr hpl hcpuOf fun _ => by rw [hcpu]
  locks := hlocks
  irqs := h.irqs.congr hdepth hie hcpuOf (fun _ => by rw [hcpu]; exact ⟨rfl, rfl, rfl⟩)
    (fun u _ => hopened u) (fun u hu => (hpl u).trans hu) (fun u hu => (hpl u).trans hu)
    fun u _ hu => (hpl u).trans hu
  ctxs := h.ctxs.congr hpl hcpuOf hctx hentry fun q _ => hopened (.proc q)
  states := h.states.congr hpl hcpuOf hctx hstate

/-- An action that changes processes in ways that no part of the invariant looks at. -/
theorem Core.congr (h : Core s V) (hcpuOf : s'.cpuOf = s.cpuOf) (hcpu : s'.cpu = s.cpu)
    (hlock : s'.lock = s.lock) (hctx : s'.ctx = s.ctx) (hentry : s'.entry = s.entry)
    (hopened : ∀ u, opened u s'.hist = opened u s.hist)
    (hstate : ∀ q, (s'.proc q).state = (s.proc q).state) : Core s' V :=
  h.congr_locks h.shape (h.locks.congr (fun _ => rfl) hcpuOf hlock) (fun _ => rfl) (fun _ => rfl)
    (fun _ => rfl) hcpuOf hcpu hctx hentry hopened hstate

theorem update_proc_sched (V : Views n κ ℓ) (v : View n κ ℓ) (x : κ) :
    update V (.proc p) v (.sched x) = V (.sched x) :=
  update_of_ne (by rintro ⟨⟩) ..

theorem update_sched_proc (V : Views n κ ℓ) (v : View n κ ℓ) (q : Fin n) :
    update V (.sched c) v (.proc q) = V (.proc q) :=
  update_of_ne (by rintro ⟨⟩) ..

theorem update_proc_of_ne (V : Views n κ ℓ) (v : View n κ ℓ) (h : q ≠ p) :
    update V (.proc p) v (.proc q) = V (.proc q) := update_of_ne (proc_ne h) ..

theorem update_sched_of_ne (V : Views n κ ℓ) (v : View n κ ℓ) (h : x ≠ c) :
    update V (.sched c) v (.sched x) = V (.sched x) := update_of_ne (sched_ne h) ..

/-! ## Interrupts -/

@[simp] theorem opened_pushed_self (was : Bool) (h : List (Event n κ)) :
    opened t (.pushed t was :: h) = some was :: opened t h := if_pos rfl

theorem opened_pushed_of_ne (hu : u ≠ t) (was : Bool) (h : List (Event n κ)) :
    opened u (.pushed t was :: h) = opened u h := if_neg (Ne.symm hu)

@[simp] theorem opened_popped_self (now : Bool) (h : List (Event n κ)) :
    opened t (.popped t now :: h) = (opened t h).tail := if_pos rfl

theorem opened_popped_of_ne (hu : u ≠ t) (now : Bool) (h : List (Event n κ)) :
    opened u (.popped t now :: h) = opened u h := if_neg (Ne.symm hu)

/-- **An action on the interrupts of a processor** concerns the stack it is on. -/
theorem Irqs.act (h : Irqs s V) (hpl : Places s V) (ht : s.cpuOf t = some c)
    (hcpuOf : s'.cpuOf = s.cpuOf) (hcpu : ∀ x, x ≠ c → s'.cpu x = s.cpu x)
    (hopened : ∀ u, u ≠ t → opened u s'.hist = opened u s.hist) (hnoff : (s'.cpu c).noff = v.depth)
    (hsie : (s'.cpu c).sie = (decide (v.depth = 0) && v.ie))
    (hintena : v.depth ≠ 0 → v.place ≠ .parked → (∀ q, v.place ≠ .away q) →
      (s'.cpu c).intena = v.ie) (hnest : v.place ≠ .out → (opened t s'.hist).length = v.depth)
    (houter : ∀ w, v.place ≠ .out → (opened t s'.hist).getLast? = some (some w) → w = v.ie)
    (hcalm : ∀ x, t = .sched x → v.depth ≠ 0 → v.ie = false) : Irqs s' (update V t v) where
  noff {u x} hu := by
    rw [hcpuOf] at hu
    by_cases hut : u = t
    · subst hut
      obtain rfl : c = x := Option.some.inj (ht.symm.trans hu)
      rwa [update_self]
    · rw [update_of_ne hut, hcpu x (hpl.ne_cpu ht hu hut), h.noff hu]
  sie {u x} hu := by
    rw [hcpuOf] at hu
    by_cases hut : u = t
    · subst hut
      obtain rfl : c = x := Option.some.inj (ht.symm.trans hu)
      rwa [update_self]
    · rw [update_of_ne hut, hcpu x (hpl.ne_cpu ht hu hut), h.sie hu]
  intena {u x} hu hd hp ha := by
    rw [hcpuOf] at hu
    by_cases hut : u = t
    · subst hut
      obtain rfl : c = x := Option.some.inj (ht.symm.trans hu)
      rw [update_self] at hd hp ha ⊢
      exact hintena hd hp ha
    · rw [update_of_ne hut] at hd hp ha ⊢
      rw [hcpu x (hpl.ne_cpu ht hu hut)]
      exact h.intena hu hd hp ha
  nest {u} hp := by
    by_cases hut : u = t
    · subst hut
      rw [update_self] at hp ⊢
      exact hnest hp
    · rw [update_of_ne hut] at hp ⊢
      rw [hopened u hut, h.nest hp]
  outer {u w} hp hw := by
    by_cases hut : u = t
    · subst hut
      rw [update_self] at hp ⊢
      exact houter w hp hw
    · rw [update_of_ne hut] at hp ⊢
      rw [hopened u hut] at hw
      exact h.outer hp hw
  calm {x} hd := by
    by_cases hut : .sched x = t
    · rw [hut, update_self] at hd ⊢
      exact hcalm x hut.symm hd
    · rw [update_of_ne hut] at hd ⊢
      exact h.calm hd

theorem setCpu_proc {v : Cpu n} (h : v.proc = (s.cpu c).proc) (x : κ) :
    ((s.setCpu c v).cpu x).proc = (s.cpu x).proc :=
  view_update Cpu.proc h x

variable (h : Core s V)
include h

section

variable (ht : s.cpuOf t = some c)
include ht

/-- An action that opens or closes a `push_off`. -/
theorem Core.nest {x : Cpu n} {e : Event n κ} {d : ℕ} (hp : (V t).place.Plain)
    (hd : (V t).held.length ≤ d) (hproc : x.proc = (s.cpu c).proc)
    (hopened : ∀ u, u ≠ t → opened u (e :: s.hist) = opened u s.hist) (hnoff : x.noff = d)
    (hsie : x.sie = (decide (d = 0) && (V t).ie)) (hintena : x.intena = (V t).ie)
    (hnest : (opened t (e :: s.hist)).length = d)
    (houter : ∀ w, (opened t (e :: s.hist)).getLast? = some (some w) → w = (V t).ie)
    (hcalm : ∀ y, t = .sched y → (V t).ie = false) :
    Core ((s.setCpu c x).note e) (update V t { V t with depth := d }) := by
  have hself : ((s.setCpu c x).note e).cpu c = x := update_self ..
  have hirqs : Irqs ((s.setCpu c x).note e) (update V t { V t with depth := d }) := by
    refine h.irqs.act h.places ht rfl (fun y hy => update_of_ne hy ..) hopened ?_ ?_
      (fun _ _ _ => ?_) (fun _ => hnest) (fun w _ => houter w) fun y hy _ => hcalm y hy
    · rwa [hself]
    · rwa [hself]
    · rwa [hself]
  refine ⟨shape_update h.shape ((h.shape t).depth hp hd),
    h.places.congr (view_update View.place rfl) rfl (setCpu_proc hproc),
    h.locks.congr (view_update View.held rfl) rfl rfl, hirqs,
    h.ctxs.congr (view_update View.place rfl) rfl rfl rfl fun q hq => hopened _ ?_,
    h.states.congr (view_update View.place rfl) rfl rfl fun _ => rfl⟩
  rintro rfl
  exact hp.ne_out hq

/-- `push_off` -/
theorem Core.pushOff (hp : (V t).place.Plain) (hcalm : ∀ x, t = .sched x → (V t).ie = false) :
    Core ((s.setCpu c (s.cpu c).pushOff).note (.pushed t (s.cpu c).sie))
      (update V t { V t with depth := (V t).depth + 1 }) := by
  have hsie := h.irqs.sie ht
  have hnoff := h.irqs.noff ht
  refine h.nest ht hp (((h.shape t).length_le hp).1.trans (Nat.le_succ _)) rfl
    (fun u hu => opened_pushed_of_ne hu ..) ?_ ?_ ?_ ?_ (fun w hw => ?_) hcalm
  · rw [← hnoff]
    rfl
  · simp [Cpu.pushOff]
  · show (if (s.cpu c).noff = 0 then (s.cpu c).sie else (s.cpu c).intena) = (V t).ie
    by_cases hz : (V t).depth = 0
    · rw [hnoff, if_pos hz, hsie, hz]
      simp
    · rw [hnoff, if_neg hz]
      exact h.irqs.intena ht hz hp.ne_parked hp.ne_away
  · rw [opened_pushed_self, length_cons, h.irqs.nest hp.ne_out]
  · rw [opened_pushed_self] at hw
    cases hop : opened t s.hist with
    | nil =>
      -- this is the outermost one
      have hz : (V t).depth = 0 := by
        rw [← h.irqs.nest hp.ne_out, hop]
        rfl
      rw [hop] at hw
      have heq : (s.cpu c).sie = w := by simpa using hw
      rw [← heq, hsie, hz]
      simp
    | cons b bs =>
      rw [hop] at hw
      refine h.irqs.outer hp.ne_out ?_
      rw [hop]
      exact hw

/-- `pop_off`: interrupts are off, and a `push_off` is open. -/
theorem Core.popOff_ready (hd : (V t).depth ≠ 0) :
    (s.cpu c).sie = false ∧ ¬ (s.cpu c).noff < 1 := by
  rw [h.irqs.sie ht, h.irqs.noff ht]
  simp [hd]

/-- The interrupt-enable bit after a `pop_off`. -/
theorem Core.popOff_sie (hp : (V t).place.Plain) (hd : (V t).depth ≠ 0) :
    (s.cpu c).popOff.sie = (decide ((V t).depth - 1 = 0) && (V t).ie) := by
  show (decide ((s.cpu c).noff - 1 = 0) && (s.cpu c).intena) = _
  rw [h.irqs.noff ht, h.irqs.intena ht hd hp.ne_parked hp.ne_away]

/-- What a `pop_off` does is fair: the outermost one restores the bit. -/
theorem Core.popOff_fair (hp : (V t).place.Plain) (hd : (V t).depth ≠ 0) :
    (Event.popped t (s.cpu c).popOff.sie).Fair s.hist := by
  refine ⟨fun was hwas => ?_, ?_⟩
  · have hone : (V t).depth = 1 := by
      rw [← h.irqs.nest hp.ne_out, hwas]
      rfl
    have hie : was = (V t).ie := h.irqs.outer hp.ne_out (by rw [hwas]; rfl)
    rw [h.popOff_sie ht hp hd, hone, hie]
    simp
  · rintro x rfl
    rw [h.popOff_sie ht hp hd, h.irqs.calm hd, Bool.and_false]

/-- `pop_off` -/
theorem Core.popOff (hp : (V t).place.Plain) (hd : (V t).held.length < (V t).depth) :
    Core ((s.setCpu c (s.cpu c).popOff).note (.popped t (s.cpu c).popOff.sie))
      (update V t { V t with depth := (V t).depth - 1 }) := by
  have hz : (V t).depth ≠ 0 := Nat.ne_of_gt (Nat.zero_lt_of_lt hd)
  refine h.nest ht hp (Nat.le_sub_one_of_lt hd) rfl (fun u hu => opened_popped_of_ne hu ..) ?_
    (h.popOff_sie ht hp hz) (h.irqs.intena ht hz hp.ne_parked hp.ne_away) ?_ (fun w hw => ?_) ?_
  · rw [← h.irqs.noff ht]
    rfl
  · rw [opened_popped_self, length_tail, h.irqs.nest hp.ne_out]
  · rw [opened_popped_self] at hw
    refine h.irqs.outer hp.ne_out ?_
    cases hop : opened t s.hist with
    | nil =>
      rw [hop] at hw
      cases hw
    | cons b bs =>
      rw [hop, tail_cons] at hw
      cases bs with
      | nil => cases hw
      | cons b' bs' => rwa [List.getLast?_cons_cons]
  · rintro y rfl
    exact h.irqs.calm hz

/-- The interrupt-enable bit is changed where no `push_off` is open. -/
theorem Core.setSie (hp : (V t).place = .run) (hd : (V t).depth = 0) (b : Bool)
    (hv : v.place = .run ∧ v.depth = 0 ∧ v.held = [] ∧ v.ie = b) :
    Core (s.setCpu c { s.cpu c with sie := b }) (update V t v) := by
  obtain ⟨hvp, hvd, hvh, hvb⟩ := hv
  have hself : (s.setCpu c { s.cpu c with sie := b }).cpu c = { s.cpu c with sie := b } :=
    update_self ..
  have hplain : (V t).place.Plain := by rw [hp]; trivial
  have hheld : (V t).held = [] := by
    have := ((h.shape t).length_le hplain).1
    rw [hd] at this
    exact length_eq_zero_iff.mp (Nat.le_zero.mp this)
  have hnest : opened t s.hist = [] := by
    have := h.irqs.nest hplain.ne_out
    rw [hd] at this
    exact length_eq_zero_iff.mp this
  have hirqs : Irqs (s.setCpu c { s.cpu c with sie := b }) (update V t v) := by
    refine h.irqs.act h.places ht rfl (fun x hx => update_of_ne hx ..) (fun _ _ => rfl)
      ?_ ?_ (fun hz => absurd hvd hz) (fun _ => ?_) (fun w _ hw => ?_) fun _ _ hz => absurd hvd hz
    · rw [hself, hvd, ← hd]
      exact h.irqs.noff ht
    · rw [hself, hvd, hvb]
      simp
    · rw [hvd]
      exact congrArg List.length hnest
    · have hw' : (opened t s.hist).getLast? = some (some w) := hw
      rw [hnest] at hw'
      cases hw'
  have hplace : ∀ u, (update V t v u).place = (V u).place :=
    view_update View.place (by rw [hvp, hp])
  refine ⟨shape_update h.shape ?_, h.places.congr hplace rfl (setCpu_proc rfl),
    h.locks.congr (view_update View.held (by rw [hvh, hheld])) rfl rfl, hirqs,
    h.ctxs.congr hplace rfl rfl rfl fun _ _ => rfl, h.states.congr hplace rfl rfl fun _ => rfl⟩
  unfold Shape
  rw [hvp, hvh]
  exact ⟨Nat.zero_le _, nodup_nil⟩

/-! ## Locks -/

/-- A lock is taken. -/
theorem Core.lock [DecidableEq ℓ] (hp : (V t).place = .run) (hd : (V t).held.length < (V t).depth)
    (hl : s.lock l = none) :
    Core (s.setLock l (some c)) (update V t { V t with held := l :: (V t).held }) := by
  have hnew : ∀ u, s.cpuOf u ≠ none → l ∉ (V u).held := by
    intro u hu hmem
    obtain ⟨x, hx⟩ := Option.ne_none_iff_exists'.mp hu
    have := (h.locks l x).mpr ⟨u, hx, hmem⟩
    rw [hl] at this
    cases this
  have hplain : (V t).place.Plain := by rw [hp]; trivial
  refine h.congr_locks (shape_update h.shape ?_) (fun l' x => ?_) (view_update View.place rfl)
    (view_update View.depth rfl) (view_update View.ie rfl) rfl rfl rfl rfl (fun _ => rfl)
    fun _ => rfl
  · simp only [hp]
    refine ⟨hd, nodup_cons.mpr ⟨hnew t (State.on_of_eq ht), ?_⟩⟩
    exact ((h.shape t).length_le hplain).2
  · show update s.lock l (some c) l' = some x ↔
      ∃ u, s.cpuOf u = some x ∧ l' ∈ (update V t _ u).held
    by_cases hl' : l' = l
    · subst hl'
      rw [update_self]
      constructor
      · rintro ⟨⟩
        exact ⟨t, ht, by rw [update_self]; exact (.head _)⟩
      · rintro ⟨u, hu, hmem⟩
        by_cases hut : u = t
        · subst hut
          rw [← ht, hu]
        · rw [update_of_ne hut] at hmem
          exact absurd hmem (hnew u (State.on_of_eq hu))
    · rw [update_of_ne hl', h.locks l' x]
      refine exists_congr fun u => and_congr_right fun _ => ?_
      by_cases hut : u = t
      · subst hut
        rw [update_self]
        rw [mem_cons, or_iff_right hl']
      · rw [update_of_ne hut]

/-- A lock is given up, by code that does not depend on it. -/
theorem Core.unlock [DecidableEq ℓ] (hl : l ∈ (V t).held)
    (hp : (V t).place = .run ∨ (∃ st, (V t).place = .leaving st) ∧ ∀ q, l ≠ .proc q) :
    Core (s.setLock l none) (update V t { V t with held := (V t).held.erase l }) := by
  have hplain : (V t).place.Plain := by
    rcases hp with hp | ⟨⟨st, hp⟩, -⟩ <;> rw [hp] <;> trivial
  obtain ⟨hlen, hnodup⟩ := (h.shape t).length_le hplain
  have hlen' : ((V t).held.erase l).length ≤ (V t).depth := by
    rw [length_erase_of_mem hl]
    omega
  refine h.congr_locks (shape_update h.shape ?_) (fun l' x => ?_) (view_update View.place rfl)
    (view_update View.depth rfl) (view_update View.ie rfl) rfl rfl rfl rfl (fun _ => rfl)
    fun _ => rfl
  · have hshape := h.shape t
    unfold Shape at hshape ⊢
    rcases hp with hp | ⟨⟨st, hp⟩, hne⟩
    · simp only [hp] at hshape ⊢
      exact ⟨hlen', hnodup.erase l⟩
    · simp only [hp] at hshape ⊢
      obtain ⟨q, hq, -, -, hmem, hst⟩ := hshape
      exact ⟨q, hq, hlen', hnodup.erase l, (mem_erase_of_ne (hne q).symm).mpr hmem, hst⟩
  · show update s.lock l none l' = some x ↔
      ∃ u, s.cpuOf u = some x ∧ l' ∈ (update V t _ u).held
    by_cases hl' : l' = l
    · subst hl'
      rw [update_self]
      refine iff_of_false (by rintro ⟨⟩) ?_
      rintro ⟨u, hu, hmem⟩
      by_cases hut : u = t
      · subst hut
        rw [update_self] at hmem
        exact (hnodup.not_mem_erase) hmem
      · rw [update_of_ne hut] at hmem
        exact hut (h.eq_of_held hu ht hmem hl)
    · rw [update_of_ne hl', h.locks l' x]
      refine exists_congr fun u => and_congr_right fun _ => ?_
      by_cases hut : u = t
      · subst hut
        rw [update_self]
        exact (mem_erase_of_ne hl').symm
      · rw [update_of_ne hut]

end

/-! ## Processes that are on no processor -/

/-- The state of a process that is on no processor changes. -/
theorem Core.rest (hoff : s.cpuOf (.proc p) = none)
    (hnext : ∀ x, (V (.sched x)).place.next ≠ some p) (hrest : Resting (s.setProc p w) V p) :
    Core (s.setProc p w) V := by
  have hother : ∀ {q}, q ≠ p → (s.setProc p w).proc q = s.proc q := fun hq =>
    update_of_ne hq ..
  refine ⟨h.shape, h.places.congr (fun _ => rfl) rfl fun _ => rfl,
    h.locks.congr (fun _ => rfl) rfl rfl,
    h.irqs.congr (fun _ => rfl) (fun _ => rfl) rfl (fun _ => ⟨rfl, rfl, rfl⟩) (fun _ _ => rfl)
      (fun _ => id) (fun _ => id) fun _ _ => id,
    h.ctxs.congr (fun _ => rfl) rfl rfl rfl fun _ _ => rfl,
    ⟨fun {q} hq => ?_, fun {x q} hq => ?_, fun {q} hq hn => ?_⟩⟩
  · have hqp : q ≠ p := by
      rintro rfl
      exact hq hoff
    rw [hother hqp]
    exact h.states.on hq
  · have hqp : q ≠ p := by
      rintro rfl
      exact hnext x hq
    rw [hother hqp]
    exact h.states.loading hq
  · by_cases hqp : q = p
    · subst hqp
      exact hrest
    · unfold Resting
      rw [hother hqp]
      exact h.states.off hq hn

/-- A process that is neither running nor leaving is on no processor. -/
theorem Core.off_of_state (hrun : (s.proc p).state ≠ .running) (hleft : ¬ Left (s.proc p).state) :
    s.cpuOf (.proc p) = none ∧ ∀ x, (V (.sched x)).place.next ≠ some p := by
  refine ⟨?_, fun x hx => hrun (h.states.loading hx).2.1⟩
  by_contra hon
  have hstate := h.states.on hon
  cases hpl : (V (.proc p)).place with
  | leaving st =>
    rw [hpl] at hstate
    exact hleft (hstate ▸ (h.shape _).leaving hpl)
  | switching c' st done =>
    rw [hpl] at hstate
    exact hleft (hstate ▸ ((h.shape _).switching hpl).2.2)
  | _ =>
    rw [hpl] at hstate
    exact hrun hstate

/-- Who holds `p->lock` wakes `p` up. -/
theorem Core.rouse (ht : s.cpuOf t = some c) (hl : .proc p ∈ (V t).held) (hrun : (V t).place = .run)
    (hst : (s.proc p).state = .sleeping) (hw : w.state = .runnable) : Core (s.setProc p w) V := by
  obtain ⟨hoff, hpick⟩ := h.settled ht hl hrun (by rw [hst]; rintro ⟨⟩)
  have hnext := fun x hx => hpick x (Place.pick_of_next hx)
  refine h.rest hoff hnext (.inl ⟨?_, .inl ?_⟩)
  · rw [← hw]
    exact congrArg Proc.state (update_self ..)
  · rcases h.states.off hoff hnext with ⟨hs, -⟩ | ⟨-, hp⟩ | ⟨hs | hs | hs, -⟩
    · rw [hst] at hs
      cases hs
    · exact hp
    · rw [hst] at hs
      cases hs
    · rw [hst] at hs
      cases hs
    · rw [hst] at hs
      cases hs

/-- A process that has ended or not begun, with another state of that kind. -/
theorem Core.setOut (hoff : s.cpuOf (.proc p) = none)
    (hnext : ∀ x, (V (.sched x)).place.next ≠ some p)
    (hst : (s.proc p).state = .unused ∨ (s.proc p).state = .used ∨ (s.proc p).state = .zombie)
    (hw : w.state = .unused ∨ w.state = .used ∨ w.state = .runnable ∧ s.ctx (.proc p) = .forkret) :
    Core (s.setProc p w) V := by
  have hout : (V (.proc p)).place = .out := by
    rcases h.states.off hoff hnext with ⟨hs, -⟩ | ⟨hs, -⟩ | ⟨-, hp⟩
    · rw [hs] at hst
      rcases hst with hst | hst | hst <;> cases hst
    · rw [hs] at hst
      rcases hst with hst | hst | hst <;> cases hst
    · exact hp
  have hself : (s.setProc p w).proc p = w := update_self ..
  refine h.rest hoff hnext ?_
  unfold Resting
  rw [hself]
  rcases hw with hw | hw | ⟨hw, hctx⟩
  · exact .inr (.inr ⟨.inl hw, hout⟩)
  · exact .inr (.inr ⟨.inr (.inl hw), hout⟩)
  · exact .inl ⟨hw, .inr ⟨hout, hctx⟩⟩

end Sched

end TrinityXv6
