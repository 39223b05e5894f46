import TrinityXv6.Process.Wait

/-!
# A kill and a wait

A process that waits asks `killed` before it prepares to sleep; `kkill` marks its victim and makes
it runnable if it sleeps. So a process sleeps with its mark set only if the mark came in between:
after the process had asked, and before it slept. The functions below read that off from the
history, and the invariant says that there is no other way.

No lock closes that window: `kkill` takes `p->lock` only, which the victim gives up between
`killed`, `sleep_prepare` and `sleep`.

## Main results

* `Process.Wait.not_asleep_killed` — no process sleeps in a wait with its mark set, unless a kill
  has come between its question and its sleep
* `Process.Wait.asleep_killed` — a reader of an empty pipe that sleeps after it was killed
-/

namespace TrinityXv6

namespace Process

namespace Wait

open Threads

variable {n : ℕ}

/-- Whether some process has been marked between its question and its sleep. -/
def late : List (Event n (Chan n)) → Bool
  | .slept p :: h => marked p h || late h
  | _ :: h => late h
  | [] => false

/-! ## The invariant -/

/-- The view of a process is whether it has asked in this turn of its wait. If it has, and is
marked, then the mark is a new one. -/
structure Inv (s : Kernel n) (G : Tid n → Bool) : Prop where
  asked : ∀ p, G (.inl p) = true → (s.proc p).killed = true → marked p s.hist = true
  asleep : ∀ p, (s.proc p).state = .sleeping → (s.proc p).killed = true → late s.hist = true

/-- A change that neither marks anybody nor puts anybody to sleep, and is no question. -/
structure Quiet (s s' : Kernel n) : Prop where
  killed : ∀ p, (s'.proc p).killed = true → (s.proc p).killed = true
  sleeping : ∀ p, (s'.proc p).state = .sleeping → (s.proc p).state = .sleeping
  marked : ∀ p, Process.marked p s.hist = true → Process.marked p s'.hist = true
  late : Wait.late s.hist = true → Wait.late s'.hist = true

variable {s s' s'' : Kernel n} {G : Tid n → Bool} {p q : Fin n} {t : Tid n} {g : Bool}
variable {h h' : List (Event n (Chan n))} {α : Type} {v : Proc n (Chan n)}

theorem late_cons (hl : late h = true) (e : Event n (Chan n)) : late (e :: h) = true := by
  cases e with
  | slept p => rw [late, hl, Bool.or_true]
  | _ => exact hl

theorem Inv.quiet (h : Inv s G) (hq : Quiet s s') : Inv s' G :=
  ⟨fun p hp hk => hq.marked p (h.asked p hp (hq.killed p hk)),
    fun p hs hk => hq.late (h.asleep p (hq.sleeping p hs) (hq.killed p hk))⟩

/-- A history that is the same, or has one more event that is no question. -/
def Longer (h h' : List (Event n (Chan n))) : Prop :=
  h' = h ∨ ∃ e, h' = e :: h ∧ ∀ q, e ≠ .tested q

theorem Longer.marked (hh : Longer h h')
    (hm : Process.marked p h = true) : Process.marked p h' = true := by
  rcases hh with rfl | ⟨e, rfl, he⟩
  · exact hm
  · exact marked_cons (he p) hm

theorem Longer.late (hh : Longer h h') (hl : Wait.late h = true) : Wait.late h' = true := by
  rcases hh with rfl | ⟨e, rfl, -⟩
  · exact hl
  · exact late_cons hl e

namespace Quiet

theorem refl (s : Kernel n) : Quiet s s := ⟨fun _ => id, fun _ => id, fun _ => id, id⟩

/-- The process table does not change. -/
theorem table (hp : s'.proc = s.proc) (hh : Longer s.hist s'.hist) : Quiet s s' := by
  refine ⟨fun p => ?_, fun p => ?_, fun p => hh.marked, hh.late⟩
  · rw [hp]
    exact id
  · rw [hp]
    exact id

/-- One slot changes. -/
theorem slot (hp : s'.proc = Function.update s.proc q v)
    (hh : Longer s.hist s'.hist) (hk : v.killed = true → (s.proc q).killed = true)
    (hs : v.state = .sleeping → (s.proc q).state = .sleeping) : Quiet s s' := by
  refine ⟨fun p hpk => ?_, fun p hps => ?_, fun p => hh.marked, hh.late⟩
  · rw [hp] at hpk
    rcases update_cases hpk with ⟨rfl, hnew⟩ | ⟨-, hpk⟩
    · exact hk hnew
    · exact hpk
  · rw [hp] at hps
    rcases update_cases hps with ⟨rfl, hnew⟩ | ⟨-, hps⟩
    · exact hs hnew
    · exact hps

theorem wakeup (c : Chan n) (q : Fin n) (s : Kernel n) : Quiet s (wakeupOf c q s) := by
  unfold wakeupOf
  split_ifs
  · refine .slot rfl (.inr ⟨_, rfl, nofun⟩) ?_ fun hs => absurd hs (Proc.rouse_awake _)
    rw [Proc.rouse_killed]
    exact id
  · exact .table rfl (.inr ⟨_, rfl, nofun⟩)

end Quiet

/-! ## Programs of quiet actions -/

/-- A program that neither marks anybody nor sleeps nor asks. -/
abbrev Calm {α : Type} (c : KM n α) : Prop := c.Within Quiet

section Calm

variable {α β : Type}

theorem calm_step {f : Tid n → Kernel n → Outcome Unit Halt (Kernel n) α}
    (h : ∀ t s a s' w, f t s = .done a s' w → Quiet s s') : Calm (step f : KM n α) := by
  refine ⟨fun t s a s' w hf => ?_, fun _ => trivial⟩
  change (if s.runs t then f t s else .sleep ()) = _ at hf
  by_cases hr : s.runs t
  · rw [if_pos hr] at hf
    exact h t s a s' w hf
  · rw [if_neg hr] at hf
    cases hf

theorem calm_always {f : Kernel n → α × Kernel n} (h : ∀ s, Quiet s (f s).2) :
    Calm (always f : KM n α) := by
  refine calm_step fun t s a s' w hf => ?_
  cases hf
  exact h s

theorem calm_mine {f : Fin n → Kernel n → α × Kernel n} (h : ∀ p s, Quiet s (f p s).2) :
    Calm (mine f : KM n α) := by
  refine calm_step fun t s a s' w hf => ?_
  cases t with
  | inl p =>
    cases hf
    exact h p s
  | inr k => cases hf

theorem calm_read {f : Fin n → Kernel n → α} : Calm (mine fun p s => (f p s, s) : KM n α) :=
  calm_mine fun _ s => .refl s

theorem calm_acquire (l : Lock) : Calm (acquire l : KM n Unit) := by
  refine calm_step fun t s a s' w hf => ?_
  cases hl : s.lock l with
  | none =>
    simp only [hl] at hf
    cases hf
    exact .table rfl (.inl rfl)
  | some u =>
    simp only [hl] at hf
    split_ifs at hf

theorem calm_release (l : Lock) : Calm (release l : KM n Unit) := by
  refine calm_step fun t s a s' w hf => ?_
  split_ifs at hf
  cases hf
  exact .table rfl (.inl rfl)

theorem calm_record {e : Fin n → Event n (Chan n)} (he : ∀ p q, e p ≠ .tested q) :
    Calm (record e : KM n Unit) :=
  calm_mine fun p _ => .table rfl (.inr ⟨_, rfl, he p⟩)

theorem calm_prepare (c : Fin n → Chan n) :
    Calm (mine fun p s => ((), prepareOf (c p) p s) : KM n Unit) :=
  calm_mine fun _ _ => .slot rfl (.inr ⟨_, rfl, nofun⟩) id id

theorem calm_wakeup (c : Chan n) : Calm (wakeup c : KM n Unit) := by
  unfold wakeup
  induction List.finRange n with
  | nil => trivial
  | cons q qs ih => exact .bind (calm_always fun s => .wakeup c q s) fun _ => ih

end Calm

/-! ### Pipes -/

theorem calm_push (ch : UInt8) :
    Calm (mine fun p s => ((), (s.setPi (s.data.pi.push ch)).note (.accepted p ch)) : KM n Unit) :=
  calm_mine fun _ _ => .table rfl (.inr ⟨_, rfl, nofun⟩)

theorem calm_pipewriteEnd (k : ℤ) : Calm (pipewriteEnd k : KM n ℤ) :=
  .bind (calm_wakeup _) fun _ => .bind (calm_record nofun) fun _ =>
    .bind (calm_release _) fun _ => trivial

theorem calm_pipewriteStop : Calm (pipewriteStop : KM n ℤ) :=
  .bind (calm_record nofun) fun _ => .bind (calm_release _) fun _ => trivial

theorem calm_pipereadEnd (k : ℤ) : Calm (pipereadEnd k : KM n ℤ) :=
  .bind (calm_wakeup _) fun _ => .bind (calm_record nofun) fun _ =>
    .bind (calm_release _) fun _ => trivial

theorem calm_pipereadFrom (dst : ℕ → Bool) (todo i : ℕ) :
    Calm (pipereadFrom dst todo i : KM n ℤ) := by
  induction todo generalizing i with
  | zero => exact calm_pipereadEnd _
  | succ todo ih =>
    refine .bind calm_read fun empty => ?_
    cases empty with
    | true => exact calm_pipereadEnd _
    | false =>
      cases dst i with
      | false => exact calm_pipereadEnd _
      | true =>
        exact .bind (calm_mine fun _ _ => .table rfl (.inr ⟨_, rfl, nofun⟩)) fun _ => ih (i + 1)

theorem calm_pipeclose (writable : Bool) : Calm (pipeclose writable : KM n Unit) := by
  refine .bind (calm_acquire _) fun _ => ?_
  cases writable with
  | true =>
    exact .bind (calm_mine fun _ _ => .table rfl (.inl rfl)) fun _ => .bind (calm_wakeup _) fun _ =>
      calm_release _
  | false =>
    exact .bind (calm_mine fun _ _ => .table rfl (.inl rfl)) fun _ => .bind (calm_wakeup _) fun _ =>
      calm_release _

/-! ### The console and the clock -/

theorem calm_consolereadEnd (i : ℕ) : Calm (consolereadEnd i : KM n ℤ) :=
  .bind (calm_release _) fun _ => trivial

theorem calm_consolereadEof (i : ℕ) : Calm (consolereadEof i : KM n ℤ) := by
  refine .bind (calm_mine fun _ s => ?_) fun _ => calm_consolereadEnd i
  split_ifs
  · exact .table rfl (.inl rfl)
  · exact .refl s

theorem calm_consoleintr (c : UInt8) : Calm (consoleintr c : KM n Unit) := by
  refine .bind (calm_acquire _) fun _ =>
    .bind (calm_always fun _ => .table rfl (.inl rfl)) fun wake => .bind ?_ fun _ => calm_release _
  cases wake with
  | true => exact calm_wakeup _
  | false => trivial

theorem calm_clockintr (cpu : ℕ) : Calm (clockintr cpu : KM n Unit) := by
  unfold clockintr
  split_ifs
  · exact .bind (calm_acquire _) fun _ =>
      .bind (calm_always fun _ => .table rfl (.inl rfl)) fun _ =>
      .bind (calm_wakeup _) fun _ => calm_release _
  · trivial

/-! ### Creating and ending processes -/

theorem calm_kforkFrom (f : Fate) (qs : List (Fin n)) : Calm (kforkFrom f qs) := by
  induction qs with
  | nil => trivial
  | cons q qs ih =>
    refine .bind (calm_mine fun p s => ?_) fun r => ?_
    · unfold forkAt
      by_cases hu : (s.proc q).state = .unused
      · rw [if_pos hu]
        rcases forkOf_cases f s.nextpid (s.proc p) (s.proc q) with hf | hf
        · simp only [hf]
          exact .slot rfl (.inr ⟨_, rfl, nofun⟩) nofun nofun
        · simp only [hf]
          exact .slot rfl (.inr ⟨_, rfl, nofun⟩) id nofun
      · rw [if_neg hu]
        exact .refl s
    · cases r with
      | taken => exact ih
      | failed => trivial
      | created pid => trivial

theorem calm_kfork (f : Fate) : Calm (kfork f : KM n Int32) := by
  refine .bind (calm_kforkFrom f _) fun r => ?_
  cases r with
  | none => trivial
  | some r =>
    exact .bind (calm_acquire _) fun _ =>
      .bind (calm_mine fun _ _ => .slot rfl (.inl rfl) id id) fun _ =>
      .bind (calm_release _) fun _ =>
      .bind (calm_mine fun _ _ => .slot rfl (.inr ⟨_, rfl, nofun⟩) id nofun) fun _ => trivial

theorem calm_reparentFrom (init : Fin n) (qs : List (Fin n)) : Calm (reparentFrom init qs) := by
  induction qs with
  | nil => trivial
  | cons q qs ih =>
    refine .bind (calm_mine fun p s => ?_) fun adopted => .bind ?_ fun _ => ih
    · unfold adoptOf
      split_ifs
      · exact .slot rfl (.inl rfl) id id
      · exact .refl s
    · cases adopted with
      | true => exact calm_wakeup _
      | false => trivial

theorem calm_kexitFiles (fds : List (Fin nofile)) : Calm (kexitFiles fds : KM n Unit) := by
  induction fds with
  | nil => trivial
  | cons fd fds ih => exact .bind (calm_mine fun _ _ => .slot rfl (.inl rfl) id id) fun _ => ih

theorem calm_kexit (init : Fin n) (status : Int32) : Calm (kexit init status) := by
  refine .bind (calm_step fun t s a s' w hf => ?_) fun _ => .bind (calm_kexitFiles _) fun _ =>
    .bind (calm_mine fun _ _ => .slot rfl (.inl rfl) id id) fun _ => .bind (calm_acquire _) fun _ =>
    .bind (calm_reparentFrom init _) fun _ => .bind calm_read fun parent => .bind ?_ fun _ =>
    calm_mine fun _ _ => .slot rfl (.inr ⟨_, rfl, nofun⟩) id nofun
  · split_ifs at hf
    cases hf
    exact .refl s
  · cases parent with
    | none => trivial
    | some c => exact calm_wakeup _

theorem calm_kwaitScan (dst : Option Bool) (qs : List (Fin n)) (kids : Bool) :
    Calm (kwaitScan dst qs kids) := by
  induction qs generalizing kids with
  | nil => trivial
  | cons q qs ih =>
    refine .bind (calm_mine fun p s => ?_) fun r => ?_
    · unfold lookAt
      split_ifs
      · exact .table rfl (.inr ⟨_, rfl, nofun⟩)
      · exact .slot rfl (.inr ⟨_, rfl, nofun⟩) nofun nofun
      · exact .refl s
      · exact .refl s
    · cases r with
      | other => exact ih _
      | child => exact ih _
      | failed => trivial
      | reaped pid => trivial

/-! ## Questions, kills and sleeps -/

namespace Inv

/-- A process asks, and is not marked. -/
theorem ask (h : Inv s G) (hk : (s.proc p).killed = false) :
    Inv (s.note (.tested p)) (Function.update G (.inl p) true) := by
  refine ⟨fun q hq hqk => ?_, fun q hs hqk => h.asleep q hs hqk⟩
  by_cases hqp : q = p
  · rw [hqp] at hqk
    cases hk.symm.trans hqk
  · rw [Function.update_of_ne fun he => hqp (Sum.inl.inj he)] at hq
    exact (if_neg (Ne.symm hqp)).trans (h.asked q hq hqk)

/-- A process that has asked goes to sleep. -/
theorem sleep (h : Inv s G) (hG : G (.inl p) = true) : Inv (sleepOf p s) G := by
  have hnote : Inv (s.note (.slept p)) G := h.quiet (.table rfl (.inr ⟨_, rfl, nofun⟩))
  unfold sleepOf
  split_ifs
  · refine ⟨fun q hq hqk => hnote.asked q hq ?_, fun q hs hqk => ?_⟩
    · by_cases hqp : q = p
      · rw [hqp] at hqk ⊢
        simpa using hqk
      · simpa [hqp] using hqk
    · by_cases hqp : q = p
      · -- the mark is newer than the question
        rw [hqp] at hqk
        have hm := h.asked p hG (by simpa using hqk)
        rw [State.note_hist, State.setProc_hist, late, hm, Bool.true_or]
      · exact hnote.asleep q (by simpa [hqp] using hs) (by simpa [hqp] using hqk)
  · exact hnote

/-- Somebody is marked, and does not sleep. -/
theorem mark (h : Inv s G) {e : Event n (Chan n)}
    (he : e = .fault q ∨ ∃ pid t, e = .kill q pid t) (hs : v.state ≠ .sleeping) :
    Inv ((s.setProc q v).note e) G := by
  have hself : marked q (e :: s.hist) = true := by
    rcases he with rfl | ⟨pid, t, rfl⟩ <;> simp [marked]
  have hnote : Inv (s.note e) G := by
    refine h.quiet (.table rfl (.inr ⟨_, rfl, ?_⟩))
    rcases he with rfl | ⟨pid, t, rfl⟩ <;> rintro p ⟨⟩
  refine ⟨fun p hp hk => ?_, fun p hps hk => ?_⟩
  · by_cases hpq : p = q
    · rw [hpq]
      exact hself
    · exact hnote.asked p hp (by simpa [hpq] using hk)
  · by_cases hpq : p = q
    · rw [hpq] at hps
      exact absurd (by simpa using hps) hs
    · exact hnote.asleep p (by simpa [hpq] using hps) (by simpa [hpq] using hk)

end Inv

/-- The logic of kills and waits. -/
abbrev logic (n : ℕ) : Logic (Tid n) Unit Halt (Kernel n) (Tid n → Bool) Bool :=
  localLogic Unit Halt Inv

theorem Calm.safe {c : KM n α} (hc : Calm c) (g : Bool) : Safe (logic n) t (fun _ v => v = g) c g :=
  Prog.Within.safe (fun h hq => h.quiet hq) hc g

/-- A program after which nothing is claimed. -/
abbrev Any {α : Type} (t : Tid n) (c : KM n α) : Prop :=
  ∀ g, Safe (logic n) t (fun _ _ => True) c g

theorem Calm.any {c : KM n α} (hc : Calm c) : Any t c := fun g =>
  (hc.safe g).mono fun _ _ _ => trivial

theorem Any.bind {β : Type} {c : KM n α} {k : α → KM n β} (hc : Any t c) (hk : ∀ a, Any t (k a)) :
    Any t (c >>= k) := fun g =>
  Safe.bind (hc g) fun a g' _ => hk a g'

theorem any_stay : Any t (stay : KM n α) := fun _ => safe_stay

/-- After `killed` has said no, the process has asked. -/
theorem safe_killed : Safe (logic n) t (fun dead v => dead = false → v = true)
    (killed : KM n Bool) g := by
  cases t with
  | inr k => exact safe_mine_inr
  | inl p =>
    refine safe_mine fun s G h hG hr => ?_
    unfold killedOf
    cases hk : (s.proc p).killed with
    | true =>
      refine ⟨g, ?_, nofun⟩
      rw [← hG, Function.update_eq_self]
      exact h
    | false => exact ⟨true, h.ask hk, fun _ => rfl⟩

theorem safe_sleep : Safe (logic n) t (fun _ _ => True) (sleep : KM n Unit) true := by
  cases t with
  | inr k => exact safe_mine_inr
  | inl p =>
    exact safe_mine_same fun s G h hG hr => ⟨h.sleep hG, trivial⟩

/-- One turn of a wait, after the question. -/
theorem safe_nap (c : Fin n → Chan n) (l : Lock) : Safe (logic n) t (fun _ _ => True)
    (do mine fun p s => ((), prepareOf (c p) p s); release l; sleep; acquire l : KM n Unit) true :=
  ((calm_prepare c).safe true).seq fun _ => ((calm_release l).safe true).seq fun _ =>
    Safe.bind safe_sleep fun _ g _ => (calm_acquire l).any g

/-- A wait that asks: `stop` is what it does when it is killed, `turn` how it sleeps. -/
theorem any_ask {k : Bool → KM n α} (hstop : Any t (k true))
    (hturn : Safe (logic n) t (fun _ _ => True) (k false) true) : Any t (killed >>= k) := by
  intro g
  refine Safe.bind safe_killed fun dead g' hg' => ?_
  cases dead with
  | true => exact hstop g'
  | false =>
    rw [hg' rfl]
    exact hturn

/-! ### The waits -/

/-- The question is asked only while the read end is open. -/
theorem safe_pipewriteTest : Safe (logic n) t (fun stop v => stop = false → v = true)
    (pipewriteTest : KM n Bool) g := by
  refine Safe.bind (calm_read.safe g) ?_
  intro opened g' _
  cases opened with
  | true => exact safe_killed
  | false => exact nofun

theorem safe_pipewriteSleep :
    Safe (logic n) t (fun _ _ => True) (pipewriteSleep : KM n Unit) true :=
  ((calm_wakeup .nread).safe true).seq fun _ => safe_nap (fun _ => .nwrite) .pi

theorem any_pipewriteFrom (src : ℕ → Option UInt8) (n' : ℤ) (fuel i : ℕ) :
    Any t (pipewriteFrom src n' fuel i : KM n ℤ) := by
  induction fuel generalizing i with
  | zero => exact any_stay
  | succ fuel ih =>
    rw [pipewriteFrom]
    by_cases hi : (i : ℤ) < n'
    · rw [if_pos hi]
      intro g
      refine Safe.bind safe_pipewriteTest fun stop g' hg' => ?_
      cases stop with
      | true => exact calm_pipewriteStop.any g'
      | false =>
        rw [hg' rfl]
        refine (calm_read.safe true).seq fun full => ?_
        cases full with
        | true => exact Safe.bind safe_pipewriteSleep fun _ g _ => ih _ g
        | false =>
          cases src i with
          | none => exact (calm_pipewriteEnd _).any true
          | some ch =>
            exact Any.bind (calm_push ch).any (fun _ => ih _) true
    · rw [if_neg hi]
      exact (calm_pipewriteEnd _).any

theorem any_pipereadWait (dst : ℕ → Bool) (n' : ℤ) (fuel : ℕ) :
    Any t (pipereadWait dst n' fuel : KM n ℤ) := by
  induction fuel with
  | zero => exact any_stay
  | succ fuel ih =>
    refine calm_read.any.bind fun wait => ?_
    cases wait with
    | false => exact (calm_pipereadFrom _ _ _).any
    | true =>
      refine any_ask ?_ ?_
      · refine Any.bind (Calm.any (calm_record ?_)) fun _ =>
          (calm_release _).any.bind fun _ _ => trivial
        nofun
      · exact Safe.bind (safe_nap (fun _ => .nread) .pi) fun _ g _ => ih g

theorem any_consolereadFrom (dst : ℕ → Bool) (n' : ℤ) (fuel i : ℕ) :
    Any t (consolereadFrom dst n' fuel i : KM n ℤ) := by
  induction fuel generalizing i with
  | zero => exact any_stay
  | succ fuel ih =>
    rw [consolereadFrom]
    by_cases hi : (i : ℤ) < n'
    · rw [if_pos hi]
      refine calm_read.any.bind fun wait => ?_
      cases wait with
      | false =>
        refine Any.bind (calm_mine fun _ _ => .table rfl (.inl rfl)).any fun c => ?_
        split_ifs
        · exact (calm_consolereadEof i).any
        · exact (calm_consolereadEnd _).any
        · exact ih _
        · exact (calm_consolereadEnd _).any
      | true =>
        refine any_ask ?_ ?_
        · exact (calm_release _).any.bind fun _ _ => trivial
        · exact Safe.bind (safe_nap (fun _ => .consr) .cons) fun _ g _ => ih _ g
    · rw [if_neg hi]
      exact (calm_consolereadEnd _).any

theorem any_sysPauseFrom (ticks0 : UInt32) (n' : ℤ) (fuel : ℕ) :
    Any t (sysPauseFrom ticks0 n' fuel : KM n ℤ) := by
  induction fuel with
  | zero => exact any_stay
  | succ fuel ih =>
    refine calm_read.any.bind fun wait => ?_
    cases wait with
    | false => exact (calm_release _).any.bind fun _ _ => trivial
    | true =>
      refine any_ask ?_ ?_
      · exact (calm_release _).any.bind fun _ _ => trivial
      · exact Safe.bind (safe_nap (fun _ => .ticks) .ticks) fun _ g _ => ih g

theorem any_kwaitEnd (r : Int32) : Any t (kwaitEnd r : KM n Int32) :=
  (calm_release _).any.bind fun _ _ => trivial

theorem any_kwaitFrom (dst : Option Bool) (fuel : ℕ) : Any t (kwaitFrom dst fuel : KM n Int32) := by
  induction fuel with
  | zero => exact any_stay
  | succ fuel ih =>
    refine (calm_kwaitScan dst _ false).any.bind fun r => ?_
    match r with
    | .ret r => exact any_kwaitEnd r
    | .kids false => exact any_kwaitEnd (-1)
    | .kids true =>
      exact any_ask (any_kwaitEnd (-1)) (Safe.bind (safe_nap .proc .wait) fun _ g _ => ih g)

/-! ### All calls -/

theorem any_kkill (pid : Int32) : Any t (kkill pid : KM n ℤ) := by
  intro g
  refine (safe_kkillFrom_same (fun s G q h _ => h.mark (.inr ⟨pid, t, rfl⟩) ?_) _).mono
    fun _ _ _ => trivial
  exact Proc.rouse_awake _

theorem any_setkilled : Any t (setkilled : KM n Unit) := by
  intro g
  cases t with
  | inr k => exact safe_mine_inr
  | inl p =>
    refine safe_mine_same fun s G h hG hr => ⟨h.mark (.inl rfl) ?_, trivial⟩
    rw [hr]
    nofun

theorem calm_yield (q : Fin n) : Calm (yield q : KM n Unit) := by
  refine calm_always fun s => ?_
  split_ifs
  · exact .slot rfl (.inl rfl) id nofun
  · exact .refl s

theorem calm_schedule (q : Fin n) : Calm (schedule q : KM n Unit) := by
  refine calm_always fun s => ?_
  split_ifs
  · exact .slot rfl (.inl rfl) id nofun
  · exact .refl s

theorem any_call (init : Fin n) (y : Call n) : Any t (y.code init) := by
  have hret : ∀ {α : Type} {c : KM n α}, Any t c → Any t (ignore c) := fun hc =>
    hc.bind fun _ _ => trivial
  cases y with
  | pipeclose writable => exact (calm_pipeclose writable).any
  | consoleintr c => exact (calm_consoleintr c).any
  | clockintr cpu => exact (calm_clockintr cpu).any
  | kfork f => exact hret (calm_kfork f).any
  | kexit status => exact (calm_kexit init status).any
  | kkill pid => exact hret (any_kkill pid)
  | yield q => exact (calm_yield q).any
  | schedule q => exact (calm_schedule q).any
  | pipewrite src n' fuel =>
    refine hret (Any.bind (Calm.any (calm_record ?_)) fun _ =>
      (calm_acquire _).any.bind fun _ => ?_)
    · nofun
    · exact any_pipewriteFrom src n' fuel 0
  | piperead dst n' fuel =>
    refine hret (Any.bind (Calm.any (calm_record ?_)) fun _ =>
      (calm_acquire _).any.bind fun _ => ?_)
    · nofun
    · exact any_pipereadWait dst n' fuel
  | consoleread dst n' fuel =>
    exact hret ((calm_acquire _).any.bind fun _ => any_consolereadFrom dst n' fuel 0)
  | sysPause n' fuel =>
    exact hret ((calm_acquire _).any.bind fun _ => calm_read.any.bind fun ticks0 =>
      any_sysPauseFrom ticks0 n' fuel)
  | kwait dst fuel => exact hret ((calm_acquire _).any.bind fun _ => any_kwaitFrom dst fuel)
  | setkilled => exact any_setkilled

/-! ## The main results -/

/-- **A kill is not slept through**, in every interleaving in which no kill comes between the
question of a process and its sleep: in no reachable state does a process sleep in one of the waits
with its mark set. -/
theorem not_asleep_killed {init : Fin n} {s₀ : Kernel n}
    (h₀ : ∀ p, (s₀.proc p).state ≠ .sleeping) {t₀ : Tid n}
    {cfg : Config (Tid n) Unit Halt (Kernel n)}
    (hr : Reachable (system init) ((system init).powerOn s₀ t₀) cfg)
    (hlate : late cfg.shared.hist = false) (p : Fin n) :
    ¬ ((cfg.shared.proc p).state = .sleeping ∧ (cfg.shared.proc p).killed = true) := by
  have hinv : Inv s₀ fun _ : Tid n => false := ⟨nofun, fun p hp => absurd hp (h₀ p)⟩
  obtain ⟨G, h⟩ := inv_of_reachable not_false (fun t x _ _ g (_ : True) => any_call init x g) hinv
    (fun _ => trivial) rfl hr
  rintro ⟨hs, hk⟩
  cases hlate.symm.trans (h.asleep p hs hk)

/-- Two running processes with the pids 1 and 2, and an empty pipe. -/
def twoProcs : Kernel 2 where
  proc p := ⟨.running, none, false, 0, Int32.ofNat (p + 1), none, true, true, fun _ => false, true⟩
  nextpid := 3
  lock _ := none
  data := ⟨⟨fun _ => 0, 0, 0, true, true⟩, ⟨fun _ => 0, 0, 0, 0⟩, 0⟩
  hist := []

theorem twoProcs_not_sleeping (p : Fin 2) : (twoProcs.proc p).state ≠ .sleeping := nofun

/-- Process 0 reads from the empty pipe and sleeps; then process 1 kills it. -/
def killedAsleep : List (Move (Tid 2) (Call 2)) :=
  .call (.inl 0) (.piperead (fun _ => true) 1 2) :: List.replicate 7 (.act (.inl 0)) ++
    [.call (.inl 1) (.kkill 1), .act (.inl 1)]

/-- A sleeping reader that is killed can run. -/
theorem not_asleep_killed_reader : ∃ cfg, Reachable (system (0 : Fin 2))
    ((system (0 : Fin 2)).powerOn twoProcs (.inr 0)) cfg ∧ (cfg.shared.proc 0).killed = true ∧
    (cfg.shared.proc 0).state ≠ .sleeping := by
  have hrun : ((system (0 : Fin 2)).play killedAsleep
      ((system (0 : Fin 2)).powerOn twoProcs (.inr 0))).any
      (fun cfg => (cfg.shared.proc 0).killed = true ∧ late cfg.shared.hist = false) = true := by
    decide +kernel
  obtain ⟨cfg, hr, hk, hl⟩ := exists_of_play _ hrun
  exact ⟨cfg, hr, hk, fun hs => not_asleep_killed twoProcs_not_sleeping hr hl 0 ⟨hs, hk⟩⟩

/-- Process 0 reads from the empty pipe and has asked `killed` when process 1 kills it; it goes on
to sleep. -/
def killedAwake : List (Move (Tid 2) (Call 2)) :=
  .call (.inl 0) (.piperead (fun _ => true) 1 2) :: List.replicate 4 (.act (.inl 0)) ++
    [.call (.inl 1) (.kkill 1), .act (.inl 1)] ++ List.replicate 3 (.act (.inl 0))

/-- Whether a call has returned. -/
def returned : KM n Unit → Bool
  | .ret _ => true
  | .act _ _ => false

/-- The kill is complete, its victim sleeps in `piperead` with its mark set, the lock is free, and
nobody owes it a wakeup. -/
theorem asleep_killed : ∃ cfg, Reachable (system (0 : Fin 2))
    ((system (0 : Fin 2)).powerOn twoProcs (.inr 0)) cfg ∧
    (cfg.shared.proc 0).state = .sleeping ∧ (cfg.shared.proc 0).chan = some .nread ∧
    (cfg.shared.proc 0).killed = true ∧ cfg.shared.lock .pi = none ∧
    returned (cfg.threads (.inl 1)).code = true :=
  exists_of_play killedAwake (by decide +kernel)

end Wait

end Process

end TrinityXv6
