import TrinityXv6.Process.ForkStep

/-!
# Fork, exit and wait

Every program of the system keeps the invariant, so what the history says about a process is what
the table says, in every interleaving.

## Main results

* `Process.Fork.accounting` — parents live, pids differ, and a zombie is freed once, by its parent
* `Process.Fork.unused_blank` — an unused slot is blank and a kill reaches an existing process,
  unless somebody kills the pid zero
* `Process.Fork.kill_zero` — `kkill(0)` marks an unused slot, and the next child is born killed
-/

namespace TrinityXv6

namespace Process

namespace Fork

open Threads
open List
open Function (update update_self update_of_ne update_eq_self)

variable {n : ℕ} {init p q : Fin n} {nz : Prop} {s s' : Kernel n} {G G' : Tid n → View n}
  {t : Tid n} {g : View n} {f : Fin n → Option (Fin n)} {closed : Fin nofile → Bool} {x : Int32}
  {gone : Bool}

namespace Inv

theorem wakeup (h : Inv init nz s G) (c : Chan n) (q : Fin n) : Inv init nz (wakeupOf c q s) G := by
  unfold wakeupOf
  split_ifs with hc
  · have hI : Inv init nz (s.setProc q { s.proc q with chan := none }.rouse) G := by
      unfold Proc.rouse
      split_ifs with hs
      · refine h.setProc ⟨rfl, rfl, rfl, rfl, rfl, rfl, rfl, .inr ⟨.inr (.inr hs), .inl rfl⟩, ?_⟩
          rfl
        exact fun _ _ => rfl
      · exact h.setProc ⟨rfl, rfl, rfl, rfl, rfl, rfl, rfl, .inl rfl, fun _ _ => rfl⟩ rfl
    exact hI.note_plain trivial
  · exact h.note_plain trivial

theorem prepare (h : Inv init nz s G) (hr : (s.proc p).state = .running) (c : Chan n) :
    Inv init nz (prepareOf c p s) G := by
  have hI : Inv init nz (s.setProc p { s.proc p with chan := some c }) G := by
    refine h.setProc ⟨rfl, rfl, rfl, rfl, rfl, rfl, rfl, .inl rfl, fun hu => ?_⟩ rfl
    cases hr.symm.trans hu
  exact hI.note_plain trivial

theorem sleep (h : Inv init nz s G) (hr : (s.proc p).state = .running) :
    Inv init nz (sleepOf p s) G := by
  unfold sleepOf
  split_ifs
  · have hI : Inv init nz (s.setProc p { s.proc p with state := .sleeping }) G := by
      refine h.setProc ⟨rfl, rfl, rfl, rfl, rfl, rfl, rfl, .inr ⟨?_, ?_⟩, fun hu => ?_⟩ rfl
      · exact .inr (.inl hr)
      · exact .inr (.inr rfl)
      · cases hr.symm.trans hu
    exact hI.note_plain trivial
  · exact h.note_plain trivial

end Inv

/-! ## The programs keep the invariant -/

/-- The logic of the process table. -/
abbrev logic (init : Fin n) (nz : Prop) :
    Logic (Tid n) Unit Halt (Kernel n) (Tid n → View n) (View n) :=
  localLogic Unit Halt (Inv init nz)

theorem safe_wakeupFrom (c : Chan n) (qs : List (Fin n)) :
    Safe (logic init nz) t (fun _ v => v = g) (wakeupFrom c qs : KM n Unit) g :=
  safe_wakeupFrom_same (fun _ _ q h => h.wakeup c q) qs

/-- Taking `wait_lock` shows all the parents. `c` is what else the process knows. -/
theorem safe_lock {c : Option (Fin n × Bool)} (exiting : Bool) :
    Safe (logic init nz) t (fun _ v => ∃ f, v = ⟨some f, c, exiting, closed, gone, none⟩)
      (acquire .wait : KM n Unit) ⟨none, c, false, closed, gone, none⟩ := by
  refine safe_acquire fun s G h hG hr hl =>
    ⟨⟨some fun x => (s.proc x).parent, c, exiting, closed, gone, none⟩,
      h.view rfl rfl rfl ?_ ?_ ?_ ?_ (fun _ => rfl) ?_ ?_ ?_, _, rfl⟩
  · rw [views_update View.held]
    exact h.lock.acquire hl (by rw [hG]; rfl)
  · rintro f ⟨⟩ x
    rfl
  · rw [hG]
  · rw [hG]
    nofun
  · rw [hG]
  · rw [hG]
  · rw [hG]

theorem safe_unlock {c : Option (Fin n × Bool)} {ret : Option Reach} :
    Safe (logic init nz) t (fun _ v => v = ⟨none, c, false, closed, gone, ret⟩)
      (release .wait : KM n Unit) ⟨some f, c, false, closed, gone, ret⟩ := by
  refine safe_release fun s G h hG hr hl => ⟨⟨none, c, false, closed, gone, ret⟩,
    h.view rfl rfl rfl ?_ nofun ?_ ?_ nofun ?_ ?_ ?_, rfl⟩
  · rw [views_update View.held]
    exact h.lock.release hl
  · rw [hG]
  · rw [hG]
    nofun
  · rw [hG]
  · rw [hG]
  · rw [hG]

/-! ### Creating a process -/

theorem safe_kforkFrom (f : Fate) (qs : List (Fin n)) :
    Safe (logic init nz) (.inl p)
      (fun r v => v = match r with | none => View.out | some (q, _) => View.creating none q false)
      (kforkFrom f qs) View.out := by
  induction qs with
  | nil => rfl
  | cons q qs ih =>
    refine Safe.bind (Q := fun r v => v = match r with
      | .created _ => View.creating none q false
      | _ => View.out) (safe_mine fun s G h hG hr => ?_) ?_
    · unfold forkAt
      by_cases hu : (s.proc q).state = .unused
      · rw [if_pos hu]
        rcases forkOf_cases f s.nextpid (s.proc p) (s.proc q) with hf | hf
        · simp only [hf]
          exact ⟨_, h.fail hr hG hu, rfl⟩
        · simp only [hf]
          exact ⟨_, h.alloc hr hG hu rfl, rfl⟩
      · rw [if_neg hu]
        refine ⟨View.out, ?_, rfl⟩
        rw [← hG, update_eq_self]
        exact h
    · rintro r - rfl
      cases r with
      | taken => exact ih
      | failed => rfl
      | created pid => rfl

theorem safe_kfork (f : Fate) :
    Safe (logic init nz) (.inl p) (fun _ v => v = View.out) (kfork f) View.out := by
  refine Safe.bind (safe_kforkFrom f _) ?_
  rintro r - rfl
  cases r with
  | none => rfl
  | some r =>
    obtain ⟨q, pid⟩ := r
    refine (safe_lock false).seq_exists fun _ f => ?_
    refine Safe.seq_exists (f := fun f => View.creating (some f) q true)
      (safe_mine fun s G h hG hr => ⟨_, h.adopt hr hG, _, rfl⟩) fun _ f' => ?_
    refine safe_unlock.seq fun _ => ?_
    exact Safe.seq (w := View.out)
      (safe_mine fun s G h hG hr => ⟨_, h.start hr hG, rfl⟩) fun _ => rfl

/-! ### Ending a process -/

theorem safe_kexitFiles (fds : List (Fin nofile)) {c : Fin nofile → Bool} :
    Safe (logic init nz) (.inl p)
      (fun _ v => ∃ c', v = View.closing c' false ∧ ∀ fd, c fd = true ∨ fd ∈ fds → c' fd = true)
      (kexitFiles fds) (View.closing c false) := by
  induction fds generalizing c with
  | nil => exact ⟨c, rfl, fun fd hfd => hfd.resolve_right not_mem_nil⟩
  | cons fd fds ih =>
    refine Safe.seq (w := View.closing (update c fd true) false)
      (safe_mine fun s G h hG hr => ⟨View.closing (update c fd true) false,
        h.close hr hG (fun fd' hfd' => ?_) nofun, rfl⟩) fun _ => ?_
    · by_cases hd : fd' = fd
      · rw [hd, update_self]
      · rw [update_of_ne hd] at hfd' ⊢
        exact ((h.slot p).closed fd' (by rw [hG]; exact hfd')).1
    · refine ih.mono ?_
      rintro - v ⟨c', rfl, hc'⟩
      refine ⟨c', rfl, fun fd' hfd' => hc' fd' ?_⟩
      by_cases hd : fd' = fd
      · rw [hd, update_self]
        exact .inl rfl
      · rw [update_of_ne hd]
        exact hfd'.imp id fun hm => (mem_cons.mp hm).resolve_left hd

theorem safe_reparentFrom (hp : p ≠ init) (qs : List (Fin n)) (hf : ∀ q, f q = some p → q ∈ qs) :
    Safe (logic init nz) (.inl p) (fun _ v => ∃ f', v = View.leaving f' ∧ ∀ q, f' q ≠ some p)
      (reparentFrom init qs) (View.leaving f) := by
  induction qs generalizing f with
  | nil => exact ⟨f, rfl, fun q hq => nomatch hf q hq⟩
  | cons q qs ih =>
    refine Safe.bind (Q := fun _ v => ∃ f', v = View.leaving f' ∧ ∀ x, f' x = some p → x ∈ qs)
      (safe_mine fun s G h hG hr => ?_) ?_
    · have hpar : (s.proc q).parent = f q := h.par (.inl p) f (by rw [hG]; rfl) q
      have hkeep : ∀ x, x ≠ q → f x = some p → x ∈ qs := fun x hx hfx =>
        (mem_cons.mp (hf x hfx)).resolve_left hx
      unfold adoptOf
      by_cases hq : (s.proc q).parent = some p
      · rw [if_pos hq]
        refine ⟨_, h.handOver hG hp hq, _, rfl, fun x hx => ?_⟩
        by_cases hxq : x = q
        · rw [hxq, update_self] at hx
          exact absurd (Option.some.inj hx).symm hp
        · rw [update_of_ne hxq] at hx
          exact hkeep x hxq hx
      · rw [if_neg hq]
        refine ⟨View.leaving f, ?_, f, rfl, fun x hx => hkeep x ?_ hx⟩
        · rw [← hG, update_eq_self]
          exact h
        · rintro rfl
          exact hq (hpar.trans hx)
    · rintro adopted - ⟨f', rfl, hf'⟩
      refine Safe.seq (w := View.leaving f') ?_ fun _ => ih hf'
      cases adopted with
      | true => exact safe_wakeupFrom _ _
      | false => rfl

theorem safe_kexit (status : Int32) :
    Safe (logic init nz) (.inl p) (fun _ v => v = View.out) (kexit init status) View.out := by
  refine Safe.bind (Q := fun _ v => v = View.out ∧ p ≠ init)
    (safe_step fun s G h hG hr a s' w hf => ?_) ?_
  · by_cases hp : (Sum.inl p : Tid n) = .inl init
    · rw [if_pos hp] at hf
      cases hf
    · rw [if_neg hp] at hf
      cases hf
      refine ⟨View.out, ?_, rfl, fun he => hp (by rw [he])⟩
      rw [← hG, update_eq_self]
      exact h
  rintro - - ⟨rfl, hp⟩
  refine Safe.bind (safe_kexitFiles _) ?_
  rintro - - ⟨c, rfl, hc⟩
  obtain rfl : c = fun _ => true := funext fun fd => hc fd (.inr (mem_finRange fd))
  refine Safe.seq (w := View.closing (fun _ => true) true) (safe_mine fun s G h hG hr =>
    ⟨_, h.close hr hG (fun fd hfd => ?_) (fun _ => rfl), rfl⟩) fun _ => ?_
  · exact ((h.slot p).closed fd (by rw [hG]; rfl)).1
  refine (safe_lock true).seq_exists fun _ f => ?_
  refine Safe.bind (safe_reparentFrom hp _ fun q _ => mem_finRange q) ?_
  rintro - - ⟨f', rfl, hf'⟩
  refine Safe.seq (w := View.leaving f')
    (safe_mine_same fun s G h hG hr => ⟨h, rfl⟩) fun parent => ?_
  refine Safe.seq (w := View.leaving f') ?_ fun _ =>
    safe_mine fun s G h hG hr => ⟨_, h.exit hr hG hp hf' status, rfl⟩
  cases parent with
  | none => rfl
  | some c => exact safe_wakeupFrom _ _

/-! ### Waiting for a process -/

/-- What a process in `kwait` knows after a scan of the table. -/
def Scanned : Scan → View n → Prop
  | .ret r, v => ∃ f o, v = View.waiting (some f) o ∧ (o = some (.freed r) ∨ o = none ∧ r = -1)
  | .kids _, v => ∃ f, v = View.waiting (some f) none

theorem safe_kwaitScan (dst : Option Bool) (qs : List (Fin n)) (kids : Bool) :
    Safe (logic init nz) (.inl p) Scanned (kwaitScan dst qs kids) (View.waiting (some f) none) := by
  induction qs generalizing kids with
  | nil => exact ⟨f, rfl⟩
  | cons q qs ih =>
    refine Safe.bind (Q := fun r v => match r with
      | .reaped pid => ∃ f', v = View.waiting (some f') (some (.freed pid))
      | _ => v = View.waiting (some f) none) (safe_mine fun s G h hG hr => ?_) ?_
    · have hsame : Inv init nz s (update G (.inl p) (View.waiting (some f) none)) := by
        rw [← hG, update_eq_self]
        exact h
      unfold lookAt
      by_cases hq : (s.proc q).parent = some p
      · rw [if_pos hq]
        by_cases hz : (s.proc q).state = .zombie
        · rw [if_pos hz]
          by_cases hd : dst = some false
          · rw [if_pos hd]
            refine ⟨View.waiting (some f) none, ?_, rfl⟩
            rw [← hG, update_eq_self]
            exact h.unstored hG hq hz
          · rw [if_neg hd]
            exact ⟨_, h.reap hr hG hq hz dst, _, rfl⟩
        · rw [if_neg hz]
          exact ⟨_, hsame, rfl⟩
      · rw [if_neg hq]
        exact ⟨_, hsame, rfl⟩
    · intro r v hv
      cases r with
      | other =>
        rw [show v = _ from hv]
        exact ih kids
      | child =>
        rw [show v = _ from hv]
        exact ih true
      | failed => exact ⟨f, none, hv, .inr ⟨rfl, rfl⟩⟩
      | reaped pid =>
        obtain ⟨f', rfl⟩ := hv
        exact ⟨f', some (.freed pid), rfl, .inl rfl⟩

/-- What a process knows when its `kwait` returns. -/
def Returned (r : Int32) (v : View n) : Prop :=
  ∃ o, v = View.waiting none o ∧ (o = some (.freed r) ∨ o = none ∧ r = -1)

theorem safe_kwaitEnd {r : Int32} {o : Option Reach}
    (ho : o = some (.freed r) ∨ o = none ∧ r = -1) :
    Safe (logic init nz) (.inl p) Returned (kwaitEnd r) (View.waiting (some f) o) :=
  safe_unlock.seq fun _ => ⟨o, rfl, ho⟩

theorem safe_kwaitSleep :
    Safe (logic init nz) (.inl p) (fun _ v => ∃ f, v = View.waiting (some f) none) kwaitSleep
      (View.waiting (some f) none) := by
  refine Safe.seq (w := View.waiting (some f) none)
    (safe_mine_same fun s G h hG hr => ⟨h.prepare hr _, rfl⟩) fun _ => ?_
  refine safe_unlock.seq fun _ => ?_
  exact Safe.seq (w := View.waiting none none)
    (safe_mine_same fun s G h hG hr => ⟨h.sleep hr, rfl⟩) fun _ => safe_lock false

theorem safe_kwaitFrom (dst : Option Bool) (fuel : ℕ) :
    Safe (logic init nz) (.inl p) Returned (kwaitFrom dst fuel) (View.waiting (some f) none) := by
  induction fuel generalizing f with
  | zero => exact safe_stay
  | succ fuel ih =>
    refine Safe.bind (safe_kwaitScan dst _ false) ?_
    intro r v hv
    match r, hv with
    | .ret r, ⟨f', o, hv, ho⟩ =>
      rw [hv]
      exact safe_kwaitEnd ho
    | .kids false, ⟨f', hv⟩ =>
      rw [hv]
      exact safe_kwaitEnd (.inr ⟨rfl, rfl⟩)
    | .kids true, ⟨f', hv⟩ =>
      rw [hv]
      refine (safe_killed_same fun s G h => h.note_plain trivial).seq fun dead => ?_
      cases dead with
      | true => exact safe_kwaitEnd (.inr ⟨rfl, rfl⟩)
      | false => exact safe_kwaitSleep.seq_exists fun _ f'' => ih

/-! ### A processor that has no process does not get far -/

section Processor

variable {k : ℕ}

theorem safe_kfork_inr (f : Fate) :
    Safe (logic init nz) (.inr k) (fun _ v => v = View.out) (kfork f) View.out := by
  refine Safe.bind (Q := fun r v => r = none ∧ v = View.out) ?_ ?_
  · cases List.finRange n with
    | nil => exact ⟨rfl, rfl⟩
    | cons q qs => exact safe_mine_inr_bind
  · rintro - - ⟨rfl, rfl⟩
    rfl

theorem safe_kexit_inr (status : Int32) :
    Safe (logic init nz) (.inr k) (fun _ v => v = View.out) (kexit init status) View.out := by
  refine Safe.bind (Q := fun _ _ => True) (safe_step fun s G h hG hr a s' w hf => ?_) ?_
  · rw [if_neg nofun] at hf
    cases hf
    refine ⟨View.out, ?_, trivial⟩
    rw [← hG, update_eq_self]
    exact h
  · intro _ v _
    exact Safe.bind (Q := fun _ _ => False) safe_mine_inr_bind nofun

theorem safe_kwait_inr (dst : Option Bool) (fuel : ℕ) :
    Safe (logic init nz) (.inr k) (fun _ _ => False) (kwait dst fuel) View.out := by
  refine (safe_lock false).seq_exists fun _ f => ?_
  cases fuel with
  | zero => exact safe_stay
  | succ fuel =>
    refine Safe.bind (Q := fun _ _ => False) ?_ nofun
    cases hl : List.finRange n with
    | nil => exact absurd (mem_finRange init) (by rw [hl]; exact not_mem_nil)
    | cons q qs => exact safe_mine_inr_bind

end Processor

theorem safe_call (y : Call n) (hy : y.Allowed nz) :
    Safe (logic init nz) t (fun _ v => v = View.out) (y.code init) View.out := by
  cases y with
  | kfork f =>
    refine Safe.seq (w := View.out) ?_ fun _ => rfl
    cases t with
    | inl p => exact safe_kfork f
    | inr k => exact safe_kfork_inr f
  | kexit status =>
    cases t with
    | inl p => exact safe_kexit status
    | inr k => exact safe_kexit_inr status
  | kwait dst fuel =>
    cases t with
    | inl p =>
      refine Safe.bind (Q := Returned) ?_ ?_
      · exact (safe_lock false).seq_exists fun _ f => safe_kwaitFrom dst fuel
      · rintro r - ⟨o, rfl, ho⟩
        exact safe_mine fun s G h hG hr => ⟨_, h.returned hG (.inl ⟨p, r, rfl, rfl, ho⟩), rfl⟩
    | inr k => exact Safe.bind (safe_kwait_inr dst fuel) nofun
  | kkill pid =>
    refine Safe.bind (safe_kkillFrom (w := View.waiting none (some (.marked pid)))
      (fun s G q h hG hpid => ?_) _) fun r v hv => ?_
    · have hI := h.kill (t := t) hpid hy
      rw [hG] at hI
      exact hI
    · obtain ⟨o, rfl, ho⟩ : ∃ o, v = View.waiting none o ∧
          (o = some (.marked pid) ∧ r = 0 ∨ o = none ∧ r = -1) := by
        rcases hv with ⟨hr, hv⟩ | ⟨hr, hv⟩
        · exact ⟨_, hv, .inl ⟨rfl, hr⟩⟩
        · exact ⟨_, hv, .inr ⟨rfl, hr⟩⟩
      refine safe_step fun s G h hG _ _ _ _ hf => ?_
      cases hf
      exact ⟨_, h.returned hG (.inr ⟨pid, r, rfl, ho⟩), rfl⟩
  | setkilled =>
    cases t with
    | inl p => exact safe_mine_same fun s G h hG hr => ⟨h.fault hr, rfl⟩
    | inr k => exact safe_mine_inr
  | yield q =>
    exact safe_yield fun s G h hq => h.setProc ⟨rfl, rfl, rfl, rfl, rfl, rfl, rfl,
      .inr ⟨.inr (.inl hq), .inl rfl⟩, fun _ h => h⟩ rfl
  | schedule q =>
    exact safe_schedule fun s G h hq => h.setProc ⟨rfl, rfl, rfl, rfl, rfl, rfl, rfl,
      .inr ⟨.inl hq, .inr (.inl rfl)⟩, fun _ h => h⟩ rfl

theorem inv_boot (d : Kdata) : Inv init nz (boot init d) fun _ => View.out := by
  refine ⟨fun l t => ?_, by rintro _ _ ⟨⟩, by rintro _ _ _ ⟨⟩, by rintro _ ⟨⟩, rfl, trivial,
    fun _ => rfl, fun p => ?_⟩
  · simp [boot, View.held, View.out]
  · by_cases hp : p = init
    · subst hp
      have hl : life p p [] = .live := if_pos rfl
      have hv : (boot p d).proc p = first n := if_pos rfl
      rw [hv]
      refine ⟨?_, fun hu => ?_, fun hne => absurd rfl hne, fun _ => rfl, by rintro _ ⟨⟩,
        by rintro _ ⟨⟩, fun _ => rfl, by rintro _ ⟨⟩, by rintro ⟨⟩⟩
      · show StageOk (first n) (life p p [])
        rw [hl]
        exact .inl rfl
      · cases hl.symm.trans hu
    · refine .of_free (if_neg hp) ?_ (fun _ => ?_) ⟨by rintro _ ⟨⟩, by rintro ⟨⟩⟩
      · simp [boot, hp, blank]
      · simp [boot, hp, blank, Blank, hit]

/-- The invariant holds in every reachable state. -/
theorem exists_inv {d : Kdata} {t₀ : Tid n} {cfg : Config (Tid n) Unit Halt (Kernel n)}
    (hr : Reachable (system init nz) ((system init nz).powerOn (boot init d) t₀) cfg) :
    ∃ G, Inv init nz cfg.shared G :=
  inv_of_reachable not_false
    (fun _ x _ hm g (hg : g = View.out) => by rw [hg]; exact safe_call x hm) (inv_boot d)
    (fun _ => rfl) rfl hr

/-! ## What the history says about zombies -/

/-- A zombie has exited with its status, and nobody has freed it since. -/
theorem exited_of_life {h : List (Event n (Chan n))} (hh : HistOk init nz h)
    (hl : life init p h = .zombie x) :
    ∃ h₁ h₂, h = h₁ ++ .exited p x :: h₂ ∧ ∀ q r d o, .reaped q p r d o ∉ h₁ := by
  induction h with
  | nil =>
    rw [life] at hl
    split_ifs at hl
  | cons e h ih =>
    rcases hh.life_step p with hs | ⟨-, c, rfl⟩ | ⟨-, rfl⟩ | ⟨-, y, rfl⟩ | ⟨-, _, _, _, _, -, rfl⟩
    · obtain ⟨h₁, h₂, rfl, hno⟩ := ih hh.tail (hs.symm.trans hl)
      refine ⟨e :: h₁, h₂, rfl, fun q r d o hmem => ?_⟩
      rcases mem_cons.mp hmem with rfl | hmem
      · rw [life, if_pos rfl] at hl
        cases hl
      · exact hno q r d o hmem
    · rw [life, if_pos rfl] at hl
      cases hl
    · rw [life, if_pos rfl] at hl
      cases hl
    · rw [life, if_pos rfl] at hl
      cases hl
      exact ⟨[], h, rfl, fun _ _ _ _ => not_mem_nil⟩
    · rw [life, if_pos rfl] at hl
      cases hl

/-- A zombie stays one until it is freed, and keeps its pid. -/
theorem life_of_zombie {h₁ h₂ : List (Event n (Chan n))}
    (hh : HistOk init nz (h₁ ++ h₂)) (hz : life init p h₂ = .zombie x)
    (hno : ∀ q r d o, .reaped q p r d o ∉ h₁) :
    life init p (h₁ ++ h₂) = .zombie x ∧ birth p (h₁ ++ h₂) = birth p h₂ := by
  induction h₁ with
  | nil => exact ⟨hz, rfl⟩
  | cons e h₁ ih =>
    obtain ⟨hl, hb⟩ := ih hh.tail fun q r d o hmem => hno q r d o (.tail e hmem)
    rw [cons_append] at hh ⊢
    refine ⟨?_, (hh.birth_cons (by rw [hl]; nofun)).trans hb⟩
    rcases hh.life_step p with hs | ⟨hf, -⟩ | ⟨hu, -⟩ | ⟨hv, -⟩ | ⟨-, q, r, d, o, -, rfl⟩
    · exact hs.trans hl
    · cases hl.symm.trans hf
    · cases hl.symm.trans hu
    · cases hl.symm.trans hv
    · exact absurd (.head _) (hno q r d o)

/-! ## The main results -/

/-- Nothing is lost and nothing is counted twice. The history is newest first. -/
structure Accounted (init : Fin n) (s : Kernel n) : Prop where
  /-- Every process but the first has a parent, and both can run. -/
  parent : ∀ p, p ≠ init → Awake (s.proc p).state →
    ∃ q, (s.proc p).parent = some q ∧ Awake (s.proc q).state
  pids : forks s.hist < 2 ^ 31 → ∀ p q, (s.proc p).state ≠ .unused → (s.proc q).state ≠ .unused →
    (s.proc p).pid = (s.proc q).pid → p = q
  /-- A process that has exited stays a zombie, with its pid and status, until it is freed. -/
  zombie : ∀ p x h₁ h₂, s.hist = h₁ ++ .exited p x :: h₂ → (∀ q r d o, .reaped q p r d o ∉ h₁) →
    (s.proc p).state = .zombie ∧ (s.proc p).xstate = x ∧
      (s.proc p).pid = Int32.ofNat (birth p h₂)
  /-- Whoever frees a process is its parent at that time, and the process has exited since it was
  freed last; the `kwait` takes its pid, and stores its status unless the address is zero. -/
  reaped : ∀ q p r dst o h₁ h₂, s.hist = h₁ ++ .reaped q p r dst o :: h₂ →
    parentOf init p h₂ = some q ∧ r = Int32.ofNat (birth p h₂) ∧
      ∃ x h₃ h₄, h₂ = h₃ ++ .exited p x :: h₄ ∧ (∀ q' r' d o', .reaped q' p r' d o' ∉ h₃) ∧
        o = dst.map fun _ => x
  /-- A `kwait` returns the pid of the process it has freed, or fails. -/
  returns : ∀ q r h₁ h₂, s.hist = h₁ ++ .waitRet q r :: h₂ →
    reachedBy (.inl q) h₂ = some (.freed r) ∨ reachedBy (.inl q) h₂ = none ∧ r = -1
  /-- When a `kwait` could not store the status of its child, the child stays a zombie with that
  status until it is freed, and its parent can free it. -/
  failed : ∀ q p h₁ h₂, s.hist = h₁ ++ .unstored q p :: h₂ → parentOf init p h₂ = some q ∧
    ∃ x, life init p h₂ = .zombie x ∧ ((∀ q' r d o, .reaped q' p r d o ∉ h₁) →
      (s.proc p).state = .zombie ∧ (s.proc p).xstate = x ∧
        (s.proc p).pid = Int32.ofNat (birth p h₂) ∧ ∃ q', (s.proc p).parent = some q' ∧
          ∀ dst, dst ≠ some false → (lookAt dst p q' s).1 = .reaped (s.proc p).pid)

theorem Inv.awake_iff (h : Inv init nz s G) :
    Awake (s.proc p).state ↔ life init p s.hist = .live := by
  have hst := (h.slot p).stage
  constructor
  · intro ha
    rw [hst.eq_stage, stage]
    rcases ha with ha | ha | ha <;> rw [ha]
  · intro hl
    rw [hl] at hst
    exact hst

theorem Inv.life_ne_free (h : Inv init nz s G) (hu : (s.proc p).state ≠ .unused) :
    life init p s.hist ≠ .free := by
  intro hl
  have hst := (h.slot p).stage
  rw [hl] at hst
  exact hu hst

/-- What the table says about a zombie that nobody has freed. -/
theorem Inv.of_zombie (h : Inv init nz s G) {h₁ h₂ : List (Event n (Chan n))}
    (hh : s.hist = h₁ ++ h₂) (hz : life init p h₂ = .zombie x)
    (hno : ∀ q r d o, .reaped q p r d o ∉ h₁) : (s.proc p).state = .zombie ∧ (s.proc p).xstate = x ∧
      (s.proc p).pid = Int32.ofNat (birth p h₂) ∧ ∃ q, (s.proc p).parent = some q := by
  have hok := h.hist
  rw [hh] at hok
  obtain ⟨hl, hb⟩ := life_of_zombie hok hz hno
  rw [← hh] at hl hb
  have hst := (h.slot p).stage
  rw [hl] at hst
  have hfree : life init p s.hist ≠ .free := by rw [hl]; nofun
  have hp : p ≠ init := by
    rintro rfl
    cases hl.symm.trans h.hist.first
  refine ⟨hst.1, hst.2, ?_, ?_⟩
  · rw [← hb]
    exact (h.slot p).pid hfree
  · rcases (h.slot p).parent hp (.inr ⟨x, hl⟩) with hpar | ⟨hpar, -⟩
    · obtain ⟨c, hc, -⟩ := h.hist.parent_live hp hfree
      exact ⟨c, hpar.trans hc⟩
    · exact ⟨init, hpar⟩

/-- **Fork, exit and wait.** In every interleaving of `kfork`, `kexit`, `kwait` and `kkill` by any
number of processes, from the state that `userinit` leaves. -/
theorem accounting {d : Kdata} {t₀ : Tid n} {cfg : Config (Tid n) Unit Halt (Kernel n)}
    (hr : Reachable (system init nz) ((system init nz).powerOn (boot init d) t₀) cfg) :
    Accounted init cfg.shared := by
  obtain ⟨G, h⟩ := exists_inv hr
  refine ⟨fun p hp ha => ?_, fun hf p q hp hq hpq => ?_, fun p x h₁ h₂ hh hno => ?_,
    fun q p r dst o h₁ h₂ hh => ?_, fun q r h₁ h₂ hh => ?_, fun q p h₁ h₂ hh => ?_⟩
  · have hl := h.awake_iff.mp ha
    rcases (h.slot p).parent hp (.inl hl) with hpar | ⟨hpar, -⟩
    · obtain ⟨c, hc, hcl⟩ := h.hist.parent_live hp (by rw [hl]; nofun)
      exact ⟨c, hpar.trans hc, h.awake_iff.mpr hcl⟩
    · exact ⟨init, hpar, h.awake_iff.mpr h.hist.first⟩
  · have hlp := h.life_ne_free hp
    have hlq := h.life_ne_free hq
    refine h.hist.birth_inj hlp hlq ?_
    rw [(h.slot p).pid hlp, (h.slot q).pid hlq] at hpq
    have hbp := (birth_lt p cfg.shared.hist).2
    have hbq := (birth_lt q cfg.shared.hist).2
    have hnat := congrArg (fun x : Int32 => x.toBitVec.toNat) hpq
    simp only [Int32.toBitVec_ofNat', BitVec.toNat_ofNat] at hnat
    omega
  · obtain ⟨hst, hx, hpid, -⟩ := h.of_zombie hh (if_pos rfl) hno
    exact ⟨hst, hx, hpid⟩
  · have hok := h.hist
    rw [hh] at hok
    obtain ⟨⟨x, hx, ho⟩, hpar, hret, hok₂⟩ := hok.of_append
    obtain ⟨h₃, h₄, hsplit, hno⟩ := exited_of_life hok₂ hx
    exact ⟨hpar, hret, x, h₃, h₄, hsplit, hno, ho⟩
  · have hok := h.hist
    rw [hh] at hok
    exact hok.of_append.1
  · have hok := h.hist
    rw [hh] at hok
    obtain ⟨⟨x, hx⟩, hpar, -⟩ := hok.of_append
    refine ⟨hpar, x, hx, fun hno => ?_⟩
    have hno' : ∀ q' r d o, .reaped q' p r d o ∉ h₁ ++ [.unstored q p] := by
      simpa using hno
    obtain ⟨hst, hxs, hpid, q', hq'⟩ := h.of_zombie
      (by rw [hh, append_cons]) hx hno'
    refine ⟨hst, hxs, hpid, q', hq', fun dst hdst => ?_⟩
    rw [lookAt, if_pos hq', if_pos hst, if_neg hdst]

/-- Nothing in the pipe and nothing typed. -/
def quiet : Kdata := ⟨⟨fun _ => 0, 0, 0, true, true⟩, ⟨fun _ => 0, 0, 0, 0⟩, 0⟩

/-- The first of two processes runs and creates the second one. -/
def forked : List (Move (Tid 2) (Call 2)) :=
  [.call (.inr 0) (.schedule 0), .act (.inr 0)] ++
    .call (.inl 0) (.kfork ⟨true, true, true⟩) :: List.replicate 6 (.act (.inl 0))

/-- The second one exits with status 7. The first one waits for it twice, and fails to store the
status the first time. -/
def awaited : List (Move (Tid 2) (Call 2)) :=
  [.call (.inr 0) (.schedule 1), .act (.inr 0)] ++
    .call (.inl 1) (.kexit 7) :: List.replicate 25 (.act (.inl 1)) ++
    .call (.inl 0) (.kwait (some false) 1) :: List.replicate 5 (.act (.inl 0)) ++
    .call (.inl 0) (.kwait (some true) 1) :: List.replicate 5 (.act (.inl 0))

/-- A child is created, exits and is freed; the `kwait` that frees it returns its pid 2 and stores
the status it exited with. -/
theorem accounting_fork_exit_wait : ∃ cfg h, Reachable (system (0 : Fin 2) True)
    ((system (0 : Fin 2) True).powerOn (boot 0 quiet) (.inr 0)) cfg ∧
    cfg.shared.hist = .waitRet 0 2 :: .reaped 0 1 2 (some true) (some 7) :: .waitRet 0 (-1) ::
      .unstored 0 1 :: h ∧ .exited 1 7 ∈ h ∧ Accounted 0 cfg.shared := by
  have hrun : ((system (0 : Fin 2) True).play (forked ++ awaited)
      ((system (0 : Fin 2) True).powerOn (boot 0 quiet) (.inr 0))).any
      (fun cfg => (match cfg.shared.hist with
        | .waitRet p r :: .reaped p₁ q r₁ dst x :: .waitRet p₂ r₂ :: .unstored p₃ q₃ :: _ =>
            decide ((p = 0 ∧ r = 2) ∧ (p₁ = 0 ∧ q = 1 ∧ r₁ = 2 ∧ dst = some true ∧ x = some 7) ∧
              (p₂ = 0 ∧ r₂ = -1) ∧ p₃ = 0 ∧ q₃ = 1)
        | _ => false) = true) = true := by
    decide +kernel
  obtain ⟨cfg, hr, hmatch⟩ := exists_of_play _ hrun
  have hacc := accounting hr
  split at hmatch
  · next h hh =>
    obtain ⟨⟨rfl, rfl⟩, ⟨rfl, rfl, rfl, rfl, rfl⟩, ⟨rfl, rfl⟩, rfl, rfl⟩ := of_decide_eq_true hmatch
    obtain ⟨-, -, x, h₁, h₂, hsplit, -, hx⟩ := hacc.reaped _ _ _ _ _ [.waitRet 0 2] _ hh
    obtain rfl := Option.some.inj hx
    have hmem : .exited 1 7 ∈ h₁ ++ .exited 1 7 :: h₂ := mem_append_right h₁ (.head _)
    rw [← hsplit] at hmem
    exact ⟨cfg, h, hr, hh, by simpa using hmem, hacc⟩
  · cases hmatch

/-! ### Who is killed -/

/-- If each event brings about a fact of the history or else leaves it to the history before and
does not end it, then some event has brought it about, and none since has ended it. -/
theorem exists_since {α : Type} {F : List α → Prop} {P Q : α → Prop} (hnil : ¬ F [])
    (hcons : ∀ e h, F (e :: h) → P e ∨ F h ∧ ¬ Q e) {h : List α} (hF : F h) :
    ∃ h₁ h₂ e, h = h₁ ++ e :: h₂ ∧ P e ∧ ∀ e' ∈ h₁, ¬ Q e' := by
  induction h with
  | nil => exact absurd hF hnil
  | cons e h ih =>
    rcases hcons e h hF with hP | ⟨hF, hQ⟩
    · exact ⟨[], h, e, rfl, hP, fun _ hmem => absurd hmem not_mem_nil⟩
    · obtain ⟨h₁, h₂, e', rfl, hP, hno⟩ := ih hF
      exact ⟨e :: h₁, h₂, e', rfl, hP, forall_mem_cons.mpr ⟨hQ, hno⟩⟩

/-- The process in a slot has been hit since it was created. -/
theorem killed_of_hit {h : List (Event n (Chan n))} (hit_p : hit p h = true) :
    ∃ h₁ h₂ e, h = h₁ ++ e :: h₂ ∧ (e = .fault p ∨ ∃ pid t, e = .kill p pid t) ∧
      ∀ c, .allocated (some p) c ∉ h₁ := by
  have hcons : ∀ e h, hit p (e :: h) = true → (e = .fault p ∨ ∃ pid t, e = .kill p pid t) ∨
      hit p h = true ∧ ¬ ∃ c, e = .allocated (some p) c := by
    intro e h hit_p
    cases e with
    | kill q pid t =>
      rw [hit, Bool.or_eq_true] at hit_p
      rcases hit_p with hq | hh
      · obtain rfl := of_decide_eq_true hq
        exact .inl (.inr ⟨pid, t, rfl⟩)
      · exact .inr ⟨hh, by rintro ⟨_, ⟨⟩⟩⟩
    | fault q =>
      rw [hit, Bool.or_eq_true] at hit_p
      rcases hit_p with hq | hh
      · obtain rfl := of_decide_eq_true hq
        exact .inl (.inl rfl)
      · exact .inr ⟨hh, by rintro ⟨_, ⟨⟩⟩⟩
    | allocated o c =>
      cases o with
      | none => exact .inr ⟨hit_p, by rintro ⟨_, ⟨⟩⟩⟩
      | some q =>
        rw [hit] at hit_p
        split_ifs at hit_p with hq
        refine .inr ⟨hit_p, ?_⟩
        rintro ⟨c', ⟨⟩⟩
        exact hq rfl
    | reaped c q r d o =>
      rw [hit] at hit_p
      split_ifs at hit_p
      exact .inr ⟨hit_p, by rintro ⟨_, ⟨⟩⟩⟩
    | _ => exact .inr ⟨hit_p, by rintro ⟨_, ⟨⟩⟩⟩
  obtain ⟨h₁, h₂, e, rfl, he, hno⟩ :=
    exists_since (F := fun h => hit p h = true) Bool.false_ne_true hcons hit_p
  exact ⟨h₁, h₂, e, rfl, he, fun c hmem => hno _ hmem ⟨c, rfl⟩⟩

/-- The pid of a slot changes only when a process is created in it. -/
theorem birth_append {h₁ h₂ : List (Event n (Chan n))} (hno : ∀ c, .allocated (some p) c ∉ h₁) :
    birth p (h₁ ++ h₂) = birth p h₂ := by
  induction h₁ with
  | nil => rfl
  | cons e h₁ ih =>
    have hb := ih fun c hmem => hno c (.tail e hmem)
    rw [cons_append]
    cases e with
    | allocated o c =>
      cases o with
      | none => exact hb
      | some q =>
        have hq : q ≠ p := by
          rintro rfl
          exact hno c (.head _)
        exact (if_neg hq).trans hb
    | _ => exact hb

/-- A call of `kkill` that has found its process has marked it. -/
theorem kill_of_reachedBy {h : List (Event n (Chan n))} {pid : Int32}
    (hr : reachedBy t h = some (.marked pid)) :
    ∃ p h₁ h₂, h = h₁ ++ .kill p pid t :: h₂ ∧ ∀ pid' r, .killRet t pid' r ∉ h₁ := by
  have hcons : ∀ e h, reachedBy t (e :: h) = some (.marked pid) → (∃ p, e = .kill p pid t) ∨
      reachedBy t h = some (.marked pid) ∧ ¬ ∃ pid' r, e = .killRet t pid' r := by
    intro e h hr
    cases e with
    | kill p pid' u =>
      rw [reachedBy] at hr
      split_ifs at hr with hu
      · cases hr
        exact .inl ⟨p, by rw [hu]⟩
      · exact .inr ⟨hr, by rintro ⟨_, _, ⟨⟩⟩⟩
    | killRet u pid' r =>
      rw [reachedBy] at hr
      split_ifs at hr with hu
      refine .inr ⟨hr, ?_⟩
      rintro ⟨_, _, ⟨⟩⟩
      exact hu rfl
    | reaped q p r d o =>
      rw [reachedBy] at hr
      split_ifs at hr
      · cases hr
      · exact .inr ⟨hr, by rintro ⟨_, _, ⟨⟩⟩⟩
    | waitRet q r =>
      rw [reachedBy] at hr
      split_ifs at hr
      exact .inr ⟨hr, by rintro ⟨_, _, ⟨⟩⟩⟩
    | _ => exact .inr ⟨hr, by rintro ⟨_, _, ⟨⟩⟩⟩
  obtain ⟨h₁, h₂, _, rfl, ⟨p, rfl⟩, hno⟩ :=
    exists_since (F := fun h => reachedBy t h = some (.marked pid)) (Option.some_ne_none _).symm
      hcons hr
  exact ⟨p, h₁, h₂, rfl, fun pid' r hmem => hno _ hmem ⟨pid', r, rfl⟩⟩

/-- **A kill reaches only an existing process**, in every interleaving in which nobody kills the pid
zero: an unused slot is blank, so a slot with the pid that `kkill` looks for is not unused; every
process that was killed was in its slot and had that pid; a `kkill` that returns 0 has killed such a
process; and a process is marked only if it was killed by its own pid, or faulted, after it was
created. -/
theorem unused_blank {d : Kdata} {t₀ : Tid n} {cfg : Config (Tid n) Unit Halt (Kernel n)}
    (hr : Reachable (system init True) ((system init True).powerOn (boot init d) t₀) cfg) :
    (∀ p, (cfg.shared.proc p).state = .unused → Blank (cfg.shared.proc p)) ∧
    (∀ p pid, pid ≠ 0 → (cfg.shared.proc p).pid = pid → (cfg.shared.proc p).state ≠ .unused) ∧
    (∀ p pid t h₁ h₂, cfg.shared.hist = h₁ ++ .kill p pid t :: h₂ →
      life init p h₂ ≠ .free ∧ pid = Int32.ofNat (birth p h₂)) ∧
    (∀ t pid h₁ h₂, cfg.shared.hist = h₁ ++ .killRet t pid 0 :: h₂ →
      ∃ p h₃ h₄, h₂ = h₃ ++ .kill p pid t :: h₄ ∧ (∀ pid' r, .killRet t pid' r ∉ h₃) ∧
        life init p h₄ ≠ .free ∧ pid = Int32.ofNat (birth p h₄)) ∧
    ∀ p, (cfg.shared.proc p).killed = true → ∃ h₁ h₂ e, cfg.shared.hist = h₁ ++ e :: h₂ ∧
      (e = .fault p ∨ ∃ t, e = .kill p (cfg.shared.proc p).pid t) ∧
        ∀ c, .allocated (some p) c ∉ h₁ := by
  obtain ⟨G, h⟩ := exists_inv hr
  have hblank : ∀ p, (cfg.shared.proc p).state = .unused → Blank (cfg.shared.proc p) := fun p =>
    (h.slot p).blank trivial
  have hkill : ∀ p pid t h₁ h₂, cfg.shared.hist = h₁ ++ .kill p pid t :: h₂ →
      life init p h₂ ≠ .free ∧ pid = Int32.ofNat (birth p h₂) := by
    intro p pid t h₁ h₂ hh
    have hok := h.hist
    rw [hh] at hok
    exact hok.of_append.1 trivial
  refine ⟨hblank, fun p pid h0 hpid hu => ?_, hkill, fun t pid h₁ h₂ hh => ?_, fun p hk => ?_⟩
  · exact h0 (hpid.symm.trans (hblank p hu).1)
  · have hok := h.hist
    rw [hh] at hok
    obtain ⟨hreach, -⟩ | ⟨-, hr⟩ := hok.of_append.1
    · obtain ⟨p, h₃, h₄, rfl, hno⟩ := kill_of_reachedBy hreach
      refine ⟨p, h₃, h₄, rfl, hno, hkill p pid t (h₁ ++ .killRet t pid 0 :: h₃) h₄ ?_⟩
      rw [hh]
      simp
    · cases hr
  · have hu : (cfg.shared.proc p).state ≠ .unused := by
      intro hu
      cases hk.symm.trans (hblank p hu).2.1
    rw [(h.slot p).killed trivial] at hk
    obtain ⟨h₁, h₂, e, hh, he, hno⟩ := killed_of_hit hk
    refine ⟨h₁, h₂, e, hh, he.imp id ?_, hno⟩
    rintro ⟨pid, t, rfl⟩
    refine ⟨t, ?_⟩
    have hb : birth p cfg.shared.hist = birth p h₂ := by
      rw [hh]
      exact birth_append hno
    rw [(h.slot p).pid (h.life_ne_free hu), hb, ← (hkill p pid t h₁ h₂ hh).2]

/-- The first process kills its child, whose pid is 2. -/
def childKilled : List (Move (Tid 2) (Call 2)) :=
  .call (.inl 0) (.kkill 2) :: List.replicate 3 (.act (.inl 0))

/-- A child is created and killed by its pid, and the `kkill` returns 0. -/
theorem unused_blank_child : ∃ cfg h, Reachable (system (0 : Fin 2) True)
    ((system (0 : Fin 2) True).powerOn (boot 0 quiet) (.inr 0)) cfg ∧
    cfg.shared.hist = .killRet (.inl 0) 2 0 :: h ∧
    (∃ p h₃ h₄, h = h₃ ++ .kill p 2 (.inl 0) :: h₄ ∧ life 0 p h₄ ≠ .free ∧
      2 = Int32.ofNat (birth p h₄)) ∧
    ∃ h₁ h₂ e, cfg.shared.hist = h₁ ++ e :: h₂ ∧
      (e = .fault 1 ∨ ∃ t, e = .kill 1 (cfg.shared.proc 1).pid t) ∧
        ∀ c, .allocated (some 1) c ∉ h₁ := by
  have hrun : ((system (0 : Fin 2) True).play (forked ++ childKilled)
      ((system (0 : Fin 2) True).powerOn (boot 0 quiet) (.inr 0))).any
      (fun cfg => (cfg.shared.proc 1).killed = true ∧ (match cfg.shared.hist with
        | .killRet (.inl 0) 2 0 :: _ => true
        | _ => false) = true) = true := by
    decide +kernel
  obtain ⟨cfg, hr, hk, hmatch⟩ := exists_of_play _ hrun
  obtain ⟨-, -, -, hret, hmark⟩ := unused_blank hr
  split at hmatch
  · next h hh =>
    obtain ⟨p, h₃, h₄, hsplit, -, hfound⟩ := hret (.inl 0) 2 [] h hh
    exact ⟨cfg, h, hr, hh, ⟨p, h₃, h₄, hsplit, hfound⟩, hmark 1 hk⟩
  · cases hmatch

/-- The first of two processes runs and kills the pid zero. -/
def zeroKilled : List (Move (Tid 2) (Call 2)) :=
  [.call (.inr 0) (.schedule 0), .act (.inr 0)] ++
    .call (.inl 0) (.kkill 0) :: List.replicate 3 (.act (.inl 0))

/-- Then it creates the second process. -/
def bornKilled : List (Move (Tid 2) (Call 2)) :=
  .call (.inl 0) (.kfork ⟨true, true, true⟩) :: List.replicate 6 (.act (.inl 0))

/-- Whether an event kills the pid 2, or is a fault. -/
def hitsTwo : Event 2 (Chan 2) → Bool
  | .kill _ pid _ => pid = 2
  | .fault _ => true
  | _ => false

/-- `kkill(0)` finds an unused slot and marks it. The process that `kfork` creates there, with the
pid 2, is killed although nobody has killed the pid 2 and nobody has faulted. -/
theorem kill_zero : ∃ cfg cfg', Reachable (system (0 : Fin 2) False)
      ((system (0 : Fin 2) False).powerOn (boot 0 quiet) (.inr 0)) cfg ∧
    (cfg.shared.proc 1).state = .unused ∧ (cfg.shared.proc 1).killed = true ∧
    Reachable (system (0 : Fin 2) False) cfg cfg' ∧
    (cfg'.shared.proc 1).state = .runnable ∧ (cfg'.shared.proc 1).pid = 2 ∧
    (cfg'.shared.proc 1).killed = true ∧ cfg'.shared.hist.all (fun e => !hitsTwo e) = true := by
  have hrun : ((system (0 : Fin 2) False).play zeroKilled
      ((system (0 : Fin 2) False).powerOn (boot 0 quiet) (.inr 0))).any
      (fun cfg => ((cfg.shared.proc 1).state = .unused ∧ (cfg.shared.proc 1).killed = true) ∧
        ((system (0 : Fin 2) False).play bornKilled cfg).any
          (fun cfg' => (cfg'.shared.proc 1).state = .runnable ∧ (cfg'.shared.proc 1).pid = 2 ∧
            (cfg'.shared.proc 1).killed = true ∧
            cfg'.shared.hist.all (fun e => !hitsTwo e) = true) = true) = true := by
    decide +kernel
  obtain ⟨cfg, hr, ⟨hu, hk⟩, hnext⟩ := exists_of_play _ hrun
  obtain ⟨cfg', hr', hborn⟩ := exists_of_play _ hnext
  exact ⟨cfg, cfg', hr, hu, hk, hr', hborn⟩

end Fork

end Process

end TrinityXv6
