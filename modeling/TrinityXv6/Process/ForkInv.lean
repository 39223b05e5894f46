import TrinityXv6.Process.Fork

/-!
# The life of a process

The history of a table tells what every slot is: unused, being created, live, or a zombie with a
status; which process created the one that is in it now, and whether that process has exited since;
and which pid it was given. The invariant of this module says that the table agrees with the
history, except while a process that exits is handing over its children.

Slots are used again without being initialised, so the invariant also says what an unused slot
contains. That part needs that nobody kills the pid zero, which is the pid of every unused slot.
-/

namespace TrinityXv6

namespace Process

namespace Fork

open Threads
open Function (update update_self update_of_ne update_eq_self)

variable {n : ℕ} {p : Fin n}

/-- What a `kwait` or a `kkill` has done that its result tells: it has freed, or marked, the process
with this pid. -/
inductive Reach where
  | freed (pid : Int32)
  | marked (pid : Int32)

/-- What is in a slot. -/
inductive Stage where
  | free
  | used
  | live
  | zombie (status : Int32)

section History

variable (init : Fin n) (p : Fin n)

/-- What is in slot `p`. -/
def life : List (Event n (Chan n)) → Stage
  | .allocated (some q) _ :: h => if q = p then .used else life h
  | .started q :: h => if q = p then .live else life h
  | .exited q x :: h => if q = p then .zombie x else life h
  | .reaped _ q .. :: h => if q = p then .free else life h
  | _ :: h => life h
  | [] => if p = init then .live else .free

/-- The process that created the one in slot `p`. -/
def creator : List (Event n (Chan n)) → Option (Fin n)
  | .allocated (some q) c :: h => if q = p then some c else creator h
  | _ :: h => creator h
  | [] => none

/-- Whether that process has exited since. -/
def orphan : List (Event n (Chan n)) → Bool
  | .allocated (some q) _ :: h => if q = p then false else orphan h
  | .exited q _ :: h => (creator p h = some q) || orphan h
  | _ :: h => orphan h
  | [] => false

/-- The parent of the process in slot `p`: the process that created it, or the first process once
that one has exited. -/
def parentOf (h : List (Event n (Chan n))) : Option (Fin n) :=
  if orphan p h then some init else creator p h

/-- The number of pids that have been given out since boot. -/
def forks : List (Event n (Chan n)) → ℕ
  | .allocated _ _ :: h => forks h + 1
  | _ :: h => forks h
  | [] => 0

/-- Which pid the process in slot `p` was given, counted from 1. -/
def birth : List (Event n (Chan n)) → ℕ
  | .allocated (some q) _ :: h => if q = p then forks h + 2 else birth h
  | _ :: h => birth h
  | [] => 1

/-- Whether the process in slot `p` has been killed by its pid, or has faulted, since it was
created. -/
def hit : List (Event n (Chan n)) → Bool
  | .kill q _ _ :: h => (q = p) || hit h
  | .fault q :: h => (q = p) || hit h
  | .allocated (some q) _ :: h => if q = p then false else hit h
  | .reaped _ q .. :: h => if q = p then false else hit h
  | _ :: h => hit h
  | [] => false

/-- What the running `kwait` or `kkill` of `t` has done. -/
def reachedBy (t : Tid n) : List (Event n (Chan n)) → Option Reach
  | .reaped q _ ret _ _ :: h => if .inl q = t then some (.freed ret) else reachedBy t h
  | .waitRet q _ :: h => if .inl q = t then none else reachedBy t h
  | .kill _ pid u :: h => if u = t then some (.marked pid) else reachedBy t h
  | .killRet u _ _ :: h => if u = t then none else reachedBy t h
  | _ :: h => reachedBy t h
  | [] => none

end History

/-- What can happen to a slot depends on what is in it. -/
def HistOk (init : Fin n) (nz : Prop) : List (Event n (Chan n)) → Prop
  | .kill p pid _ :: h => (nz → life init p h ≠ .free ∧ pid = Int32.ofNat (birth p h)) ∧
      HistOk init nz h
  | .killRet t pid r :: h =>
      (reachedBy t h = some (.marked pid) ∧ r = 0 ∨ reachedBy t h = none ∧ r = -1) ∧
        HistOk init nz h
  | .allocated (some p) q :: h => life init p h = .free ∧ life init q h = .live ∧ HistOk init nz h
  | .started p :: h => life init p h = .used ∧ HistOk init nz h
  | .exited p _ :: h => life init p h = .live ∧ p ≠ init ∧ HistOk init nz h
  | .reaped q p ret dst stored :: h =>
      (∃ x, life init p h = .zombie x ∧ stored = dst.map fun _ => x) ∧ parentOf init p h = some q ∧
        ret = Int32.ofNat (birth p h) ∧ HistOk init nz h
  | .unstored q p :: h =>
      (∃ x, life init p h = .zombie x) ∧ parentOf init p h = some q ∧ HistOk init nz h
  | .waitRet p r :: h =>
      (reachedBy (.inl p) h = some (.freed r) ∨ reachedBy (.inl p) h = none ∧ r = -1) ∧
        HistOk init nz h
  | _ :: h => HistOk init nz h
  | [] => True

/-- Events that say nothing about what is in a slot. -/
def Plain : Event n (Chan n) → Prop
  | .kill .. | .killRet .. | .fault .. | .allocated .. | .started .. | .exited .. | .reaped ..
  | .unstored .. | .waitRet .. => False
  | _ => True

namespace HistOk

variable {init : Fin n} {nz : Prop} {h : List (Event n (Chan n))} {e : Event n (Chan n)}

theorem tail (hh : HistOk init nz (e :: h)) : HistOk init nz h := by
  cases e with
  | kill p pid t => exact hh.2
  | killRet t pid r => exact hh.2
  | allocated o q =>
    cases o with
    | none => exact hh
    | some p => exact hh.2.2
  | started p => exact hh.2
  | exited p x => exact hh.2.2
  | reaped q p ret dst stored => exact hh.2.2.2
  | unstored q p => exact hh.2.2
  | waitRet p r => exact hh.2
  | _ => exact hh

theorem of_append {h₁ : List (Event n (Chan n))} (hh : HistOk init nz (h₁ ++ h)) :
    HistOk init nz h := by
  induction h₁ with
  | nil => exact hh
  | cons e h₁ ih => exact ih hh.tail

/-- What an event does to the process in a slot. -/
theorem life_step (hh : HistOk init nz (e :: h)) (p : Fin n) :
    life init p (e :: h) = life init p h ∨
    (life init p h = .free ∧ ∃ c, e = .allocated (some p) c) ∨
    (life init p h = .used ∧ e = .started p) ∨ (life init p h = .live ∧ ∃ x, e = .exited p x) ∨
    ∃ x q r d o, life init p h = .zombie x ∧ e = .reaped q p r d o := by
  cases e with
  | allocated o c =>
    cases o with
    | none => exact .inl rfl
    | some q =>
      by_cases hq : q = p
      · subst hq
        exact .inr (.inl ⟨hh.1, c, rfl⟩)
      · exact .inl (if_neg hq)
  | started q =>
    by_cases hq : q = p
    · subst hq
      exact .inr (.inr (.inl ⟨hh.1, rfl⟩))
    · exact .inl (if_neg hq)
  | exited q x =>
    by_cases hq : q = p
    · subst hq
      exact .inr (.inr (.inr (.inl ⟨hh.1, x, rfl⟩)))
    · exact .inl (if_neg hq)
  | reaped c q r d o =>
    obtain ⟨⟨x, hx, -⟩, -⟩ := hh
    by_cases hq : q = p
    · subst hq
      exact .inr (.inr (.inr (.inr ⟨x, c, r, d, o, hx, rfl⟩)))
    · exact .inl (if_neg hq)
  | _ => exact .inl rfl

/-- A process lives until it exits. -/
theorem live_cons (hh : HistOk init nz (e :: h)) (hl : life init p h = .live)
    (hne : ∀ x, e ≠ .exited p x) : life init p (e :: h) = .live := by
  rcases hh.life_step p with hs | ⟨hf, -⟩ | ⟨hu, -⟩ | ⟨-, x, he⟩ | ⟨x, _, _, _, _, hz, -⟩
  · exact hs.trans hl
  · cases hl.symm.trans hf
  · cases hl.symm.trans hu
  · exact absurd he (hne x)
  · cases hl.symm.trans hz

/-- A slot that is in use was in use, or a process is created in it. -/
theorem ne_free_of_cons (hh : HistOk init nz (e :: h)) (hf : life init p (e :: h) ≠ .free) :
    life init p h ≠ .free ∨ ∃ c, e = .allocated (some p) c := by
  rcases hh.life_step p with hs | ⟨-, he⟩ | ⟨hu, -⟩ | ⟨hl, -⟩ | ⟨x, _, _, _, _, hz, -⟩
  · exact .inl (hs ▸ hf)
  · exact .inr he
  · exact .inl (by rw [hu]; nofun)
  · exact .inl (by rw [hl]; nofun)
  · exact .inl (by rw [hz]; nofun)

/-- The first process lives. -/
theorem first (hh : HistOk init nz h) : life init init h = .live := by
  induction h with
  | nil => simp [life]
  | cons e h ih =>
    refine hh.live_cons (ih hh.tail) ?_
    rintro x rfl
    exact hh.2.1 rfl

/-- The parent of a process lives. -/
theorem parent_live (hh : HistOk init nz h) (hp : p ≠ init) (hf : life init p h ≠ .free) :
    ∃ c, parentOf init p h = some c ∧ life init c h = .live := by
  induction h with
  | nil => simp [life, hp] at hf
  | cons e h ih =>
    rcases hh.ne_free_of_cons hf with hf' | ⟨q, rfl⟩
    · obtain ⟨c, hc, hcl⟩ := ih hh.tail hf'
      cases e with
      | allocated o q =>
        cases o with
        | none => exact ⟨c, hc, hcl⟩
        | some p' =>
          have hpp : p' ≠ p := by
            rintro rfl
            exact hf' hh.1
          refine ⟨c, ?_, hh.live_cons hcl nofun⟩
          simpa [parentOf, orphan, creator, hpp] using hc
      | exited p' x =>
        -- the children of the process that exits go to the first one
        have hinit : life init init (.exited p' x :: h) = .live := hh.first
        cases horph : orphan p h with
        | true => exact ⟨init, by simp [parentOf, orphan, horph], hinit⟩
        | false =>
          have hcr : creator p h = some c := by simpa [parentOf, horph] using hc
          by_cases hcp : c = p'
          · exact ⟨init, by simp [parentOf, orphan, hcr, hcp], hinit⟩
          · refine ⟨c, by simp [parentOf, orphan, creator, hcr, horph, hcp], hh.live_cons hcl ?_⟩
            rintro y ⟨⟩
            exact hcp rfl
      | _ => exact ⟨c, hc, hh.live_cons hcl nofun⟩
    · exact ⟨q, by simp [parentOf, orphan, creator], hh.live_cons hh.2.1 nofun⟩

end HistOk

theorem birth_lt (p : Fin n) (h : List (Event n (Chan n))) :
    1 ≤ birth p h ∧ birth p h < forks h + 2 := by
  induction h with
  | nil => exact ⟨Nat.le_refl 1, Nat.lt_succ_self 1⟩
  | cons e h ih =>
    cases e with
    | allocated o q =>
      cases o with
      | none =>
        simp only [birth, forks]
        omega
      | some p' =>
        simp only [birth, forks]
        split_ifs <;> omega
    | _ => exact ih

variable {e : Event n (Chan n)} {init : Fin n}

/-- A process keeps its pid. -/
theorem HistOk.birth_cons {nz : Prop} {h : List (Event n (Chan n))}
    (hh : HistOk init nz (e :: h)) (hp : life init p h ≠ .free) : birth p (e :: h) = birth p h := by
  cases e with
  | allocated o c =>
    cases o with
    | none => rfl
    | some q =>
      refine if_neg ?_
      rintro rfl
      exact hp hh.1
  | _ => rfl

/-- Processes that are in the table at the same time were given different pids. -/
theorem HistOk.birth_inj {nz : Prop} {h : List (Event n (Chan n))}
    (hh : HistOk init nz h) {p q : Fin n} (hp : life init p h ≠ .free) (hq : life init q h ≠ .free)
    (hb : birth p h = birth q h) : p = q := by
  induction h with
  | nil =>
    have : ∀ {x : Fin n}, life init x [] ≠ .free → x = init := by
      intro x hx
      by_contra hne
      simp [life, hne] at hx
    rw [this hp, this hq]
  | cons e h ih =>
    have hltp := (birth_lt p h).2
    have hltq := (birth_lt q h).2
    rcases hh.ne_free_of_cons hp with hp' | ⟨c, rfl⟩
    · rw [hh.birth_cons hp'] at hb
      rcases hh.ne_free_of_cons hq with hq' | ⟨c, rfl⟩
      · rw [hh.birth_cons hq'] at hb
        exact ih hh.tail hp' hq' hb
      · rw [birth, if_pos rfl] at hb
        omega
    · rcases hh.ne_free_of_cons hq with hq' | ⟨c', he⟩
      · rw [hh.birth_cons hq', birth, if_pos rfl] at hb
        omega
      · cases he
        rfl

/-! ## The invariant -/

/-- A process that can be scheduled, now or after a wakeup. -/
def Awake (x : ProcState) : Prop := x = .runnable ∨ x = .running ∨ x = .sleeping

/-- A slot agrees with what the history says is in it. -/
def StageOk (v : Proc n (Chan n)) : Stage → Prop
  | .free => v.state = .unused
  | .used => v.state = .used
  | .live => Awake v.state
  | .zombie x => v.state = .zombie ∧ v.xstate = x

/-- What is in a slot, as far as the slot says. -/
def stage (v : Proc n (Chan n)) : Stage :=
  match v.state with
  | .unused => .free
  | .used => .used
  | .zombie => .zombie v.xstate
  | _ => .live

theorem StageOk.eq_stage {v : Proc n (Chan n)} {x : Stage} (h : StageOk v x) : x = stage v := by
  cases x with
  | free => rw [stage, show v.state = .unused from h]
  | used => rw [stage, show v.state = .used from h]
  | live => rcases h with h | h | h <;> rw [stage, h]
  | zombie y =>
    rw [stage, h.1]
    exact congrArg _ h.2.symm

/-- An unused slot contains nothing. -/
def Blank (v : Proc n (Chan n)) : Prop :=
  v.pid = 0 ∧ v.killed = false ∧ v.chan = none ∧ v.xstate = 0 ∧ (∀ fd, v.ofile fd = false) ∧
    v.cwd = false ∧ v.trapframe = false ∧ v.pagetable = false

/-- What a process or processor knows between two actions: all the parents if it holds `wait_lock`,
the process it is creating and whether it has become its parent, whether it is handing over its
children, which of its files it has closed for good, and what it has done to the process it was
looking for. -/
structure View (n : ℕ) where
  par : Option (Fin n → Option (Fin n))
  child : Option (Fin n × Bool)
  exiting : Bool
  closed : Fin nofile → Bool
  gone : Bool
  ret : Option Reach

/-- Between two calls. -/
def View.out : View n := ⟨none, none, false, fun _ => false, false, none⟩

/-- The lock that goes with a view. -/
def View.held (v : View n) : Option Lock := v.par.map fun _ => .wait

/-- One slot agrees with the history. The parts about the contents of slots need that nobody kills
the pid zero. -/
structure SlotOk (init : Fin n) (nz : Prop) (h : List (Event n (Chan n))) (G : Tid n → View n)
    (p : Fin n) (v : Proc n (Chan n)) : Prop where
  stage : StageOk v (life init p h)
  used : life init p h = .used → ∃ q b, (G (.inl q)).child = some (p, b)
  parent : p ≠ init → life init p h = .live ∨ (∃ x, life init p h = .zombie x) →
    v.parent = parentOf init p h ∨ v.parent = some init ∧
      ∃ c, parentOf init p h = some c ∧ (G (.inl c)).exiting = true
  pid : life init p h ≠ .free → v.pid = Int32.ofNat (birth p h)
  blank : nz → v.state = .unused → Blank v
  zombie : nz → v.state = .zombie → (∀ fd, v.ofile fd = false) ∧ v.cwd = false
  killed : nz → v.killed = hit p h
  closed : ∀ fd, (G (.inl p)).closed fd = true → v.ofile fd = false ∧ life init p h = .live
  gone : (G (.inl p)).gone = true → v.cwd = false ∧ life init p h = .live

/-- The table agrees with the history. -/
structure Inv (init : Fin n) (nz : Prop) (s : Kernel n) (G : Tid n → View n) : Prop where
  lock : LockOk s fun t => (G t).held
  par : ∀ t f, (G t).par = some f → ∀ p, (s.proc p).parent = f p
  child : ∀ p q b, (G (.inl p)).child = some (q, b) → life init q s.hist = .used ∧
    parentOf init q s.hist = some p ∧ (b = true → (s.proc q).parent = some p)
  exiting : ∀ t, (G t).exiting = true → (G t).held = some .wait
  nextpid : s.nextpid = Int32.ofNat (forks s.hist + 2)
  hist : HistOk init nz s.hist
  ret : ∀ t, reachedBy t s.hist = (G t).ret
  slot : ∀ p, SlotOk init nz s.hist G p (s.proc p)

variable {init p q : Fin n} {nz : Prop} {s s' : Kernel n} {G G' : Tid n → View n} {t : Tid n}
  {g : View n} {v v' : Proc n (Chan n)}

section Slots

variable {h h' : List (Event n (Chan n))}

/-- Two histories say the same about a slot. -/
def Same (init : Fin n) (h h' : List (Event n (Chan n))) (p : Fin n) : Prop :=
  life init p h' = life init p h ∧ parentOf init p h' = parentOf init p h ∧
    birth p h' = birth p h ∧ hit p h' = hit p h

theorem Same.refl (init : Fin n) (h : List (Event n (Chan n))) (p : Fin n) : Same init h h p :=
  ⟨rfl, rfl, rfl, rfl⟩

theorem Plain.same (he : Plain e) (init : Fin n) (h : List (Event n (Chan n))) (p : Fin n) :
    Same init h (e :: h) p := by
  cases e <;> first | exact he.elim | exact ⟨rfl, rfl, rfl, rfl⟩

theorem Plain.histOk (he : Plain e) (hh : HistOk init nz h) :
    HistOk init nz (e :: h) ∧ forks (e :: h) = forks h ∧
      ∀ t, reachedBy t (e :: h) = reachedBy t h := by
  cases e <;> first | exact he.elim | exact ⟨hh, rfl, fun _ => rfl⟩

namespace SlotOk

/-- A slot that an action does not touch. -/
theorem congr (hs : SlotOk init nz h G p v) (hsame : Same init h h' p)
    (hchild : ∀ q b, (G (.inl q)).child = some (p, b) →
      ∃ q' b', (G' (.inl q')).child = some (p, b'))
    (hex : ∀ c, parentOf init p h = some c → (G (.inl c)).exiting = true →
      (G' (.inl c)).exiting = true)
    (hclosed : ∀ fd, (G' (.inl p)).closed fd = true → (G (.inl p)).closed fd = true)
    (hgone : (G' (.inl p)).gone = true → (G (.inl p)).gone = true) : SlotOk init nz h' G' p v := by
  obtain ⟨h₁, h₂, h₃, h₄⟩ := hsame
  refine ⟨?_, fun hu => ?_, fun hp hl => ?_, fun hf => ?_, hs.blank, hs.zombie, fun hz => ?_,
    fun fd hfd => ?_, fun hg => ?_⟩
  · rw [h₁]
    exact hs.stage
  · rw [h₁] at hu
    obtain ⟨q, b, hb⟩ := hs.used hu
    exact hchild q b hb
  · rw [h₁] at hl
    rw [h₂]
    rcases hs.parent hp hl with hpar | ⟨hpar, c, hc, hce⟩
    · exact .inl hpar
    · exact .inr ⟨hpar, c, hc, hex c hc hce⟩
  · rw [h₁] at hf
    rw [h₃]
    exact hs.pid hf
  · rw [h₄]
    exact hs.killed hz
  · rw [h₁]
    exact hs.closed fd (hclosed fd hfd)
  · rw [h₁]
    exact hs.gone (hgone hg)

/-- A thread learns something that does not matter to the slot. -/
theorem view (hs : SlotOk init nz h G p v) (hsame : Same init h h' p)
    (hchild : g.child = (G t).child) (hex : (G t).exiting = true → g.exiting = true)
    (hclosed : g.closed = (G t).closed) (hgone : g.gone = (G t).gone) :
    SlotOk init nz h' (update G t g) p v := by
  refine hs.congr hsame (fun q b hb => ⟨q, b, ?_⟩) (fun c _ hc => ?_) (fun fd hfd => ?_)
    fun hg => ?_
  · rw [view_update View.child hchild]
    exact hb
  · by_cases hu : Sum.inl c = t
    · rw [hu] at hc ⊢
      rw [update_self]
      exact hex hc
    · rw [update_of_ne hu]
      exact hc
  · rwa [view_update View.closed hclosed] at hfd
  · rwa [view_update View.gone hgone] at hg

/-- Threads learn what their calls have done. -/
theorem reach (hs : SlotOk init nz h G p v) {r : Tid n → Option Reach} :
    SlotOk init nz h (fun t => { G t with ret := r t }) p v :=
  ⟨hs.stage, hs.used, hs.parent, hs.pid, hs.blank, hs.zombie, hs.killed, hs.closed, hs.gone⟩

end SlotOk

/-- What scheduling, sleeping, waking and killing do to a slot. -/
structure Moves (v v' : Proc n (Chan n)) : Prop where
  parent : v'.parent = v.parent
  pid : v'.pid = v.pid
  xstate : v'.xstate = v.xstate
  ofile : v'.ofile = v.ofile
  cwd : v'.cwd = v.cwd
  trapframe : v'.trapframe = v.trapframe
  pagetable : v'.pagetable = v.pagetable
  state : v'.state = v.state ∨ Awake v.state ∧ Awake v'.state
  chan : v.state = .unused → v.chan = none → v'.chan = none

namespace Moves

theorem state_iff (h : Moves v v') {x : ProcState} (hx : ¬ Awake x) :
    v'.state = x ↔ v.state = x := by
  rcases h.state with hs | ⟨h₁, h₂⟩
  · rw [hs]
  · constructor
    · rintro rfl
      exact absurd h₂ hx
    · rintro rfl
      exact absurd h₁ hx

theorem stageOk (h : Moves v v') {x : Stage} (hx : StageOk v x) : StageOk v' x := by
  cases x with
  | free => exact (h.state_iff (by simp [Awake])).mpr hx
  | used => exact (h.state_iff (by simp [Awake])).mpr hx
  | live =>
    rcases h.state with hs | ⟨-, h₂⟩
    · rw [StageOk, hs]
      exact hx
    · exact h₂
  | zombie y => exact ⟨(h.state_iff (by simp [Awake])).mpr hx.1, h.xstate.trans hx.2⟩

theorem blank (h : Moves v v') (hs : v.state = .unused) (hb : Blank v)
    (hk : v'.killed = false) : Blank v' := by
  obtain ⟨h₁, -, h₃, h₄, h₅, h₆, h₇, h₈⟩ := hb
  exact ⟨h.pid.trans h₁, hk, h.chan hs h₃, h.xstate.trans h₄, fun fd => by rw [h.ofile, h₅],
    h.cwd.trans h₆, h.trapframe.trans h₇, h.pagetable.trans h₈⟩

end Moves

namespace SlotOk

variable (hs : SlotOk init nz h G p v)
include hs

/-- A move of a slot; what it does to the mark of a killed process is left open. -/
theorem moves (hm : Moves v v')
    (hsame : life init p h' = life init p h ∧ parentOf init p h' = parentOf init p h ∧
      birth p h' = birth p h)
    (hk : nz → v'.killed = hit p h' ∧ (v.state = .unused → v'.killed = false)) :
    SlotOk init nz h' G p v' := by
  obtain ⟨h₁, h₂, h₃⟩ := hsame
  refine ⟨?_, fun hu => ?_, fun hp hl => ?_, fun hf => ?_, fun hz hu => ?_, fun hz hzo => ?_,
    fun hz => (hk hz).1, fun fd hfd => ?_, fun hg => ?_⟩
  · rw [h₁]
    exact hm.stageOk hs.stage
  · rw [h₁] at hu
    exact hs.used hu
  · rw [h₁] at hl
    rw [h₂, hm.parent]
    exact hs.parent hp hl
  · rw [h₁] at hf
    rw [h₃, hm.pid]
    exact hs.pid hf
  · have hu' : v.state = .unused := (hm.state_iff (by simp [Awake])).mp hu
    exact hm.blank hu' (hs.blank hz hu') ((hk hz).2 hu')
  · rw [hm.ofile, hm.cwd]
    exact hs.zombie hz ((hm.state_iff (by simp [Awake])).mp hzo)
  · rw [h₁, hm.ofile]
    exact hs.closed fd hfd
  · rw [h₁, hm.cwd]
    exact hs.gone hg

/-- A process that runs is live. -/
theorem live_of_running (hr : v.state = .running) : life init p h = .live := by
  rw [hs.stage.eq_stage, Fork.stage, hr]

theorem free_of_unused (hu : v.state = .unused) : life init p h = .free := by
  rw [hs.stage.eq_stage, Fork.stage, hu]

theorem zombie_of_state (hz : v.state = .zombie) : life init p h = .zombie v.xstate := by
  rw [hs.stage.eq_stage, Fork.stage, hz]

/-- Only a live process closes its files. -/
theorem closed_ne (hl : life init p h ≠ .live) :
    (∀ fd, (G (.inl p)).closed fd ≠ true) ∧ (G (.inl p)).gone ≠ true :=
  ⟨fun fd hfd => hl (hs.closed fd hfd).2, fun hg => hl (hs.gone hg).2⟩

/-- A slot whose process gets another parent. -/
theorem setParent {o : Option (Fin n)}
    (ho : p ≠ init → life init p h = .live ∨ (∃ x, life init p h = .zombie x) →
      o = parentOf init p h ∨ o = some init ∧
        ∃ c, parentOf init p h = some c ∧ (G (.inl c)).exiting = true) :
    SlotOk init nz h G p { v with parent := o } := by
  refine ⟨?_, hs.used, ho, hs.pid, hs.blank, hs.zombie, hs.killed, hs.closed, hs.gone⟩
  have hst := hs.stage
  cases hl : life init p h <;> rw [hl] at hst <;> exact hst

/-- A running process that closes files. -/
theorem setFiles (hr : v.state = .running) {o : Fin nofile → Bool} {c : Bool}
    (hex : ∀ c, (G (.inl c)).exiting = true → (G' (.inl c)).exiting = true)
    (ho : ∀ fd, (G' (.inl p)).closed fd = true → o fd = false)
    (hc : (G' (.inl p)).gone = true → c = false) :
    SlotOk init nz h G' p { v with ofile := o, cwd := c } := by
  have hl := hs.live_of_running hr
  refine ⟨?_, fun hu => ?_, fun hp hlz => ?_, hs.pid, fun _ hu => ?_, fun _ hz => ?_, hs.killed,
    fun fd hfd => ⟨ho fd hfd, hl⟩, fun hg => ⟨hc hg, hl⟩⟩
  · rw [hl]
    exact .inr (.inl hr)
  · cases hl.symm.trans hu
  · rcases hs.parent hp hlz with hpar | ⟨hpar, d, hd, hde⟩
    · exact .inl hpar
    · exact .inr ⟨hpar, d, hd, hex d hde⟩
  · cases hr.symm.trans hu
  · cases hr.symm.trans hz

omit hs in
/-- A slot that is free. -/
theorem of_free (hl : life init p h = .free) (hst : v.state = .unused)
    (hb : nz → Blank v ∧ hit p h = false)
    (hc : (∀ fd, (G (.inl p)).closed fd ≠ true) ∧ (G (.inl p)).gone ≠ true) :
    SlotOk init nz h G p v := by
  refine ⟨?_, fun hu => ?_, fun _ hlz => ?_, fun hf => absurd hl hf, fun hz _ => (hb hz).1,
    fun _ hz => ?_, fun hz => ?_, fun fd hfd => absurd hfd (hc.1 fd), fun hg => absurd hg hc.2⟩
  · rw [hl]
    exact hst
  · cases hl.symm.trans hu
  · rcases hlz with hlz | ⟨x, hlz⟩ <;> cases hl.symm.trans hlz
  · cases hst.symm.trans hz
  · rw [(hb hz).1.2.1, (hb hz).2]

end SlotOk

end Slots

namespace Inv

variable (h : Inv init nz s G) {l : List (Event n (Chan n))}
include h

/-- What the threads know of their calls after an event of thread `t`. -/
theorem reached (hl : ∀ u, u ≠ t → reachedBy u l = reachedBy u s.hist) :
    (fun u => { G u with ret := reachedBy u l }) =
      update G t { G t with ret := reachedBy t l } := by
  funext u
  by_cases hu : u = t
  · rw [hu, update_self]
  · rw [update_of_ne hu, hl u hu, h.ret u]

theorem reached_same (hl : ∀ u, reachedBy u l = reachedBy u s.hist) :
    (fun u => { G u with ret := reachedBy u l }) = G := by
  funext u
  rw [hl u, h.ret u]

/-- An event that changes no slot. -/
theorem note
    (hsame : ∀ p, Same init s.hist (e :: s.hist) p) (hforks : forks (e :: s.hist) = forks s.hist)
    (hok : HistOk init nz (e :: s.hist)) :
    Inv init nz (s.note e) fun t => { G t with ret := reachedBy t (e :: s.hist) } := by
  refine ⟨h.lock, h.par, fun p q b hb => ?_, h.exiting, ?_, hok, fun _ => rfl, fun p => ?_⟩
  · rw [State.note_hist, (hsame q).1, (hsame q).2.1]
    exact h.child p q b hb
  · rw [State.note_hist, hforks]
    exact h.nextpid
  · exact ((h.slot p).congr (hsame p) (fun q b hb => ⟨q, b, hb⟩) (fun _ _ h => h) (fun _ h => h)
      id).reach

theorem note_plain (he : Plain e) : Inv init nz (s.note e) G := by
  obtain ⟨hok, hforks, hret⟩ := he.histOk h.hist
  have hI := h.note (he.same init s.hist) hforks hok
  rwa [h.reached_same hret] at hI

/-- A move of one slot, and what it does to the mark of a killed process. -/
theorem move (hm : Moves (s.proc q) v) (hsame : ∀ p, life init p s'.hist = life init p s.hist ∧
      parentOf init p s'.hist = parentOf init p s.hist ∧ birth p s'.hist = birth p s.hist)
    (hforks : forks s'.hist = forks s.hist)
    (hproc : s'.proc = update s.proc q v) (hlock : s'.lock = s.lock)
    (hnext : s'.nextpid = s.nextpid) (hok : HistOk init nz s'.hist)
    (hhit : ∀ p, p ≠ q → hit p s'.hist = hit p s.hist)
    (hk : nz → v.killed = hit q s'.hist ∧ ((s.proc q).state = .unused → v.killed = false)) :
    Inv init nz s' fun t => { G t with ret := reachedBy t s'.hist } := by
  have hparent : ∀ p, (s'.proc p).parent = (s.proc p).parent := by
    rw [hproc]
    exact view_update Proc.parent hm.parent
  refine ⟨fun l t => ?_, fun t f hf p => ?_, fun p q' b hb => ?_, h.exiting, ?_, hok,
    fun _ => rfl, fun p => ?_⟩
  · rw [hlock]
    exact h.lock l t
  · rw [hparent]
    exact h.par t f hf p
  · rw [(hsame q').1, (hsame q').2.1, hparent]
    exact h.child p q' b hb
  · rw [hnext, hforks]
    exact h.nextpid
  · rw [hproc]
    by_cases hp : p = q
    · rw [hp, update_self]
      exact ((h.slot q).moves hm (hsame q) hk).reach
    · rw [update_of_ne hp]
      obtain ⟨h₁, h₂, h₃⟩ := hsame p
      exact ((h.slot p).congr ⟨h₁, h₂, h₃, hhit p hp⟩ (fun q b hb => ⟨q, b, hb⟩) (fun _ _ h => h)
        (fun _ h => h) id).reach

/-- A move that keeps the mark of a killed process. -/
theorem setProc (hm : Moves (s.proc q) v)
    (hk : v.killed = (s.proc q).killed) : Inv init nz (s.setProc q v) G := by
  have hI : Inv init nz (s.setProc q v) fun t => { G t with ret := reachedBy t s.hist } := by
    refine h.move hm (fun _ => ⟨rfl, rfl, rfl⟩) rfl rfl rfl rfl h.hist (fun _ _ => rfl)
      fun hz => ⟨?_, fun hu => ?_⟩
    · rw [hk]
      exact (h.slot q).killed hz
    · rw [hk]
      exact ((h.slot q).blank hz hu).2.1
  rwa [h.reached_same fun _ => rfl] at hI

/-- `kkill` finds its process. -/
theorem kill {pid : Int32} (hpid : (s.proc q).pid = pid) (h0 : nz → pid ≠ 0) :
    Inv init nz (markOf t pid q s) (update G t { G t with ret := some (.marked pid) }) := by
  have hm : Moves (s.proc q) { s.proc q with killed := true }.rouse := by
    unfold Proc.rouse
    split_ifs with hs
    · exact ⟨rfl, rfl, rfl, rfl, rfl, rfl, rfl, .inr ⟨.inr (.inr hs), .inl rfl⟩,
        fun _ h => h⟩
    · exact ⟨rfl, rfl, rfl, rfl, rfl, rfl, rfl, .inl rfl, fun _ h => h⟩
  have hk : ({ s.proc q with killed := true }.rouse : Proc n (Chan n)).killed = true :=
    Proc.rouse_killed _
  -- an unused slot has the pid zero
  have hused : nz → (s.proc q).state ≠ .unused := by
    intro hz hu
    exact h0 hz (hpid ▸ ((h.slot q).blank hz hu).1)
  have hlife : nz → life init q s.hist ≠ .free := by
    intro hz hl
    have hs := (h.slot q).stage
    rw [hl] at hs
    exact hused hz hs
  have hI : Inv init nz (markOf t pid q s)
      fun u => { G u with ret := reachedBy u (.kill q pid t :: s.hist) } := by
    refine h.move hm (fun _ => ⟨rfl, rfl, rfl⟩) rfl rfl rfl rfl ⟨fun hz => ⟨hlife hz, ?_⟩, h.hist⟩
      (fun p hp => ?_) fun hz => ⟨?_, fun hu => absurd hu (hused hz)⟩
    · rw [← hpid]
      exact (h.slot q).pid (hlife hz)
    · simp [markOf, hit, Ne.symm hp]
    · rw [hk]
      simp [markOf, hit]
  have hother : ∀ u, u ≠ t → reachedBy u (.kill q pid t :: s.hist) = reachedBy u s.hist :=
    fun u hu => if_neg (Ne.symm hu)
  rwa [h.reached hother, reachedBy, if_pos rfl] at hI

/-- A process marks itself. -/
theorem fault (hr : (s.proc p).state = .running) :
    Inv init nz ((s.setProc p { s.proc p with killed := true }).note (.fault p)) G := by
  have hm : Moves (s.proc p) { s.proc p with killed := true } :=
    ⟨rfl, rfl, rfl, rfl, rfl, rfl, rfl, .inl rfl, fun _ h => h⟩
  have hI : Inv init nz ((s.setProc p { s.proc p with killed := true }).note (.fault p))
      fun t => { G t with ret := reachedBy t s.hist } := by
    refine h.move hm (fun _ => ⟨rfl, rfl, rfl⟩) rfl rfl rfl rfl h.hist (fun q hq => ?_)
      fun hz => ⟨?_, fun hu => ?_⟩
    · simp [hit, Ne.symm hq]
    · simp [hit]
    · cases hr.symm.trans hu
  rwa [h.reached_same fun _ => rfl] at hI

/-- Nobody but the holder of `wait_lock` hands over children. -/
theorem exiting_unique {c : Fin n} (hc : (G (.inl c)).exiting = true)
    (ht : (G t).held = some .wait) : Sum.inl c = t :=
  h.lock.unique (h.exiting _ hc) ht

/-- An action that frees nothing. -/
theorem ret_same (hg : g.ret = (G t).ret) (u : Tid n) :
    reachedBy u s.hist = (update G t g u).ret := by
  rw [h.ret u, view_update View.ret hg]

/-- What the parents are after one of them has changed. -/
theorem par_update {f : Fin n → Option (Fin n)} (hf : (G t).par = some f)
    (x : Fin n) : ((s.setProc q v).proc x).parent = update f q v.parent x := by
  by_cases hx : x = q
  · rw [hx, State.setProc_proc_self, update_self]
  · rw [State.setProc_proc_of_ne _ _ hx, update_of_ne hx]
    exact h.par t f hf x

/-- A thread takes or gives up the lock. -/
theorem view (hproc : s'.proc = s.proc) (hhist : s'.hist = s.hist)
    (hnext : s'.nextpid = s.nextpid) (hlock : LockOk s' fun u => (update G t g u).held)
    (hpar : ∀ f, g.par = some f → ∀ x, (s.proc x).parent = f x) (hchild : g.child = (G t).child)
    (hex : (G t).exiting = true → g.exiting = true) (hgex : g.exiting = true → g.held = some .wait)
    (hclosed : g.closed = (G t).closed) (hgone : g.gone = (G t).gone) (hret : g.ret = (G t).ret) :
    Inv init nz s' (update G t g) := by
  refine ⟨hlock, fun u f hf x => ?_, fun x y b hb => ?_, fun u hu => ?_, ?_, ?_, fun x => ?_,
    fun x => ?_⟩
  · rw [hproc]
    rcases update_cases hf with ⟨rfl, hnew⟩ | ⟨-, hf⟩
    · exact hpar f hnew x
    · exact h.par u f hf x
  · rw [view_update View.child hchild] at hb
    rw [hhist, hproc]
    exact h.child x y b hb
  · by_cases hut : u = t
    · rw [hut, update_self] at hu ⊢
      exact hgex hu
    · rw [update_of_ne hut] at hu ⊢
      exact h.exiting u hu
  · rw [hnext, hhist]
    exact h.nextpid
  · rw [hhist]
    exact h.hist
  · rw [hhist]
    exact h.ret_same hret x
  · rw [hhist, hproc]
    exact (h.slot x).view (.refl _ _ _) hchild hex hclosed hgone

/-- An action of process `p` on slot `q`. The other slots, and what the other threads know, are as
before; if the action changes a parent then `p` holds `wait_lock`. -/
theorem act {g₀ : View n} (hG : G (.inl p) = g₀)
    (hproc : s'.proc = update s.proc q v) (hlock : s'.lock = s.lock) (hheld : g.held = g₀.held)
    (hpar : v.parent = (s.proc q).parent ∨ g₀.held = some .wait)
    (hpar' : ∀ f, g.par = some f → ∀ x, (s'.proc x).parent = f x)
    (hsame : ∀ x, x ≠ q → Same init s.hist s'.hist x)
    (hnext : s'.nextpid = Int32.ofNat (forks s'.hist + 2)) (hok : HistOk init nz s'.hist)
    (hret : ∀ u, reachedBy u s'.hist = (update G (.inl p) g u).ret)
    (hchild : ∀ x b, g₀.child = some (x, b) → x ≠ q → g.child = some (x, b))
    (hchild' : ∀ x b, g.child = some (x, b) → life init x s'.hist = .used ∧
      parentOf init x s'.hist = some p ∧ (b = true → (s'.proc x).parent = some p))
    (hothers : ∀ x b, x ≠ p → (G (.inl x)).child = some (q, b) →
      Same init s.hist s'.hist q ∧ (b = true → v.parent = some x))
    (hex : g.exiting = g₀.exiting) (hgex : g.exiting = true → g.held = some .wait)
    (hclosed : p ≠ q → g.closed = g₀.closed ∧ g.gone = g₀.gone)
    (hslot : SlotOk init nz s'.hist (update G (.inl p) g) q v) :
    Inv init nz s' (update G (.inl p) g) := by
  subst hG
  have hself : s'.proc q = v := by rw [hproc, update_self]
  have hne : ∀ {x}, x ≠ q → s'.proc x = s.proc x := by
    intro x hx
    rw [hproc, update_of_ne hx]
  refine ⟨fun l u => ?_, fun u f hf x => ?_, fun x y b hb => ?_, fun u hu => ?_, hnext, hok, hret,
    fun x => ?_⟩
  · rw [hlock, views_update_same View.held hheld]
    exact h.lock l u
  · rcases update_cases hf with ⟨rfl, hnew⟩ | ⟨hu, hf⟩
    · exact hpar' f hnew x
    · have hkeep : (s'.proc x).parent = (s.proc x).parent := by
        by_cases hx : x = q
        · rw [hx, hself]
          refine hpar.resolve_right fun hp => ?_
          refine hu (h.lock.unique ?_ hp)
          rw [View.held, hf]
          rfl
        · rw [hne hx]
      rw [hkeep]
      exact h.par u f hf x
  · by_cases hx : x = p
    · rw [hx, update_self] at hb
      rw [hx]
      exact hchild' y b hb
    · rw [update_of_ne (Sum.inl_injective.ne hx)] at hb
      obtain ⟨hu, hc, hb'⟩ := h.child x y b hb
      by_cases hy : y = q
      · rw [hy] at hb hu hc ⊢
        obtain ⟨hs, hv⟩ := hothers x b hx hb
        rw [hs.1, hs.2.1, hself]
        exact ⟨hu, hc, hv⟩
      · rw [(hsame y hy).1, (hsame y hy).2.1, hne hy]
        exact ⟨hu, hc, hb'⟩
  · by_cases hut : u = .inl p
    · rw [hut, update_self] at hu ⊢
      exact hgex hu
    · rw [update_of_ne hut] at hu ⊢
      exact h.exiting u hu
  · by_cases hx : x = q
    · rw [hx, hself]
      exact hslot
    · rw [hne hx]
      refine (h.slot x).congr (hsame x hx) (fun y b hb => ?_) (fun c _ hc => ?_) (fun fd hfd => ?_)
        fun hg => ?_
      · by_cases hy : y = p
        · rw [hy] at hb
          exact ⟨p, b, by rw [update_self]; exact hchild x b hb hx⟩
        · exact ⟨y, b, by rw [update_of_ne (Sum.inl_injective.ne hy)]; exact hb⟩
      · rw [view_update View.exiting hex]
        exact hc
      · by_cases hxp : x = p
        · rw [hxp, update_self, (hclosed (hxp ▸ hx)).1] at hfd
          rw [hxp]
          exact hfd
        · rwa [update_of_ne (Sum.inl_injective.ne hxp)] at hfd
      · by_cases hxp : x = p
        · rw [hxp, update_self, (hclosed (hxp ▸ hx)).2] at hg
          rw [hxp]
          exact hg
        · rwa [update_of_ne (Sum.inl_injective.ne hxp)] at hg

end Inv

end Fork

end Process

end TrinityXv6
