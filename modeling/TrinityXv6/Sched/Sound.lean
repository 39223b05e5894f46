import TrinityXv6.Sched.Calls

/-!
# Processors and processes

Interrupts in the kernel, the machine at its start, and what follows for every interleaving: a
process runs on at most one processor, and interrupts are restored thread by thread.

## Main results

* `Sched.sound` — the invariant holds in every reachable state, and no assertion fails
* `Sched.one_cpu_per_process` — no process is on two processors, and `p->lock` is handed over
* `Sched.interrupts_restored` — `pop_off` restores what was there before `push_off`
-/

namespace TrinityXv6

namespace Sched

open Threads
open Process (ProcState Proc)
open Function (update update_self update_of_ne update_eq_self)

variable {n : ℕ} {κ ℓ χ : Type} {s s' : State n κ ℓ χ} {G : Ghost n κ ℓ} {V : Views n κ ℓ}
  {a : Agent n κ} {t : Thread n κ} {v : View n κ ℓ} {p init : Fin n} {timer : Bool}

/-! ## Views -/

/-- The view of an interrupt handler at its start. -/
def View.handler : View n κ ℓ := ⟨.run, 0, [], false, none⟩

theorem View.handler_free : (handler : View n κ ℓ).Free := ⟨rfl, rfl, rfl, rfl⟩

/-- The views of the programs before anything has run. -/
def Ghost.start (n : ℕ) (κ ℓ : Type) : Ghost n κ ℓ
  | .main (.proc p) => ⟨.out, 1, [.proc p], false, none⟩
  | _ => .handler

theorem Ghost.start_idle (a : Agent n κ) : (Ghost.start n κ ℓ a).Idle := by
  cases a with
  | main t =>
    cases t with
    | proc p => exact .inr ⟨rfl, rfl⟩
    | sched c => exact .inl View.handler_free
  | irq t => exact .inl View.handler_free

/-- Every processor is on a stack. -/
theorem Places.exists_stack (h : Places s V) (c : κ) : ∃ t, s.cpuOf t = some c := by
  by_cases haway : ∃ p, (V (.sched c)).place = .away p
  · obtain ⟨p, hp⟩ := haway
    cases hc : s.cpuOf (.sched c) with
    | none => exact ⟨.proc p, h.away hp hc⟩
    | some c' => exact ⟨.sched c, by rw [hc, h.home hc]⟩
  · exact ⟨.sched c, h.here fun p hp => haway ⟨p, hp⟩⟩

theorem Shape.held_le (h : Shape t v) : v.held.length ≤ v.depth := by
  unfold Shape at h
  split at h <;> grind

theorem Claims.congr {M M' : Views n κ ℓ} (h : Claims s M) (hproc : s'.proc = s.proc)
    (hctx : s'.ctx = s.ctx) (hM : ∀ u, M' u = M u) : Claims s' M' where
  holds {u x} hx := by
    rw [hM] at hx ⊢
    have hold := h.holds hx
    cases x with
    | holding q st =>
      show _ ∧ (s'.proc q).state = st ∧ _
      rw [hproc]
      exact hold
    | making q b =>
      show (s'.proc q).state = .used ∧ (b = true → s'.ctx (.proc q) = .forkret)
      rw [hproc, hctx]
      exact hold
  unique {u w q b b'} hu hw := by
    rw [hM] at hu hw
    exact h.unique hu hw

variable [DecidableEq κ]

/-! ## Interrupts in the kernel -/

/-- An interrupt finds code that has no `push_off` open. -/
theorem Core.open_of_sie {c : κ} (h : Core s V) (ht : s.cpuOf t = some c)
    (hsie : (s.cpu c).sie = true) : (V t).Open := by
  rw [h.irqs.sie ht, Bool.and_eq_true, decide_eq_true_eq] at hsie
  obtain ⟨hd, hie⟩ := hsie
  have hshape := h.shape t
  unfold Shape at hshape
  cases hp : (V t).place with
  | run =>
    simp only [hp, hd] at hshape
    exact ⟨hp, hd, List.eq_nil_of_length_eq_zero (Nat.le_zero.mp hshape.1), hie⟩
  | leaving st =>
    simp only [hp, hd] at hshape
    obtain ⟨p, -, hlen, -, hmem, -⟩ := hshape
    rw [List.eq_nil_of_length_eq_zero (Nat.le_zero.mp hlen)] at hmem
    cases hmem
  | out =>
    simp only [hp, hd] at hshape
    obtain ⟨-, -, ⟨⟩, -⟩ := hshape
  | switching c st done =>
    simp only [hp, hd] at hshape
    obtain ⟨-, -, ⟨⟩, -⟩ := hshape
  | parked =>
    simp only [hp, hd] at hshape
    obtain ⟨-, -, ⟨⟩, -⟩ := hshape
  | loading q done =>
    simp only [hp, hd] at hshape
    obtain ⟨-, -, ⟨⟩, -⟩ := hshape
  | away q =>
    simp only [hp, hd] at hshape
    obtain ⟨-, -, ⟨⟩, -⟩ := hshape

/-- The code on top of a stack, when it becomes another one. -/
theorem top_trapped {b : Bool} {w : View n κ ℓ} (htr : s'.trapped = update s.trapped t b)
    {G' : Ghost n κ ℓ} (hmain : ∀ u, u ≠ t → G' (.main u) = G (.main u))
    (hirq : ∀ u, u ≠ t → G' (.irq u) = G (.irq u))
    (hself : (if b then G' (.irq t) else G' (.main t)) = w) : top s' G' = update (top s G) t w := by
  funext u
  by_cases hu : u = t
  · subst hu
    rw [update_self, top, htr, update_self, hself]
  · rw [update_of_ne hu, top, top, htr, update_of_ne hu, hmain u hu, hirq u hu]

theorem enterIrq_runs : Runs (χ := χ) (.irq t) v enterIrq fun _ w => w = .handler := by
  refine safe_act_guarded fun s G hI hG => ?_
  cases hc : s.cpuOf (Agent.irq t).thread with
  | none => trivial
  | some c =>
    by_cases hon : s.trapped (Agent.irq t).thread = false ∧ (s.cpu c).sie = true
    · simp only [if_pos hon]
      obtain ⟨htr, hsie⟩ := hon
      have htop : top s G t = G (.main t) := top_self (a := .main t) htr
      have hopen := hI.core.open_of_sie hc hsie
      refine ⟨.handler, ⟨?_, fun u hu => ?_, ?_, hI.fair⟩, rfl⟩
      · rw [top_trapped (b := true) rfl
          (fun u _ => update_of_ne (by rintro ⟨⟩) ..)
          (fun u hu => update_of_ne (fun heq => hu (Agent.irq.inj heq)) ..) (update_self ..)]
        exact (hI.core.setSie hc hopen.1 hopen.2.1 false ⟨rfl, rfl, rfl, rfl⟩).congr rfl rfl rfl rfl
          rfl (fun _ => rfl) fun _ => rfl
      · rw [update_of_ne (by rintro ⟨⟩)]
        by_cases hut : u = t
        · subst hut
          rwa [← htop]
        · exact hI.frozen u ((update_of_ne hut ..).symm.trans hu)
      · exact hI.claims.congr rfl rfl fun u => update_of_ne (by rintro ⟨⟩) ..
    · simp only [if_neg hon]
      trivial

theorem leaveIrq_runs (h : v.Free) : Runs (χ := χ) (.irq t) v leaveIrq fun _ w => w = v := by
  unfold leaveIrq always
  refine runs_inv fun s G c hI ha hG htop hc => ?_
  refine ⟨v, ?_, rfl⟩
  rw [← hG, update_eq_self]
  refine ⟨?_, fun u hu => ?_, hI.claims.congr rfl rfl fun _ => rfl, hI.fair⟩
  · rw [top_trapped (w := G (.main t)) rfl (fun _ _ => rfl)
      (fun _ _ => rfl) rfl]
    exact (hI.core.setSie hc (by rw [htop]; exact h.run) (by rw [htop]; exact h.depth) true
      (hI.frozen t ha)).congr rfl rfl rfl rfl rfl (fun _ => rfl) fun _ => rfl
  · have hut : u ≠ t := by
      rintro rfl
      cases (update_self ..).symm.trans hu
    exact hI.frozen u ((update_of_ne hut ..).symm.trans hu)

/-! ## The machine at its start -/

theorem core_start : Core (start κ ℓ χ init) (top (start κ ℓ χ init) (.start n κ ℓ)) where
  shape t := by
    cases t with
    | proc p => exact ⟨p, rfl, rfl, rfl, rfl⟩
    | sched c => exact ⟨le_rfl, List.nodup_nil⟩
  places :=
    { one := by
        rintro (p | c) (q | d) x hx hy
        · cases hx
        · cases hx
        · cases hy
        · cases hx
          cases hy
          rfl
      home := by
        rintro c c' hc
        cases hc
        rfl
      proc := fun c p => iff_of_false (by rintro ⟨⟩) (by rintro ⟨⟩)
      unique := by rintro c c' p ⟨⟩
      guest := by rintro p c ⟨⟩
      away := by rintro c p ⟨⟩
      here := fun _ => rfl }
  locks l c := by
    refine iff_of_false (by rintro ⟨⟩) ?_
    rintro ⟨p | d, hc, hl⟩
    · cases hc
    · cases hl
  irqs :=
    { noff := by
        rintro (p | c) x hx
        · cases hx
        · rfl
      sie := by
        rintro (p | c) x hx
        · cases hx
        · rfl
      intena := by
        rintro (p | c) x hx hd
        · cases hx
        · exact absurd rfl hd
      nest := by
        rintro (p | c) hp
        · exact absurd rfl hp
        · rfl
      outer := by
        rintro (p | c) w hp hw
        · exact absurd rfl hp
        · cases hw
      calm := fun _ => rfl }
  ctxs :=
    { pinned := by rintro (p | c) _ _ _ ⟨⟩
      switching := by rintro (p | c) _ _ _ ⟨⟩
      loading := by rintro (p | c) _ _ ⟨⟩
      parked := by rintro (p | c) ⟨⟩
      away := by rintro (p | c) _ ⟨⟩
      entry := fun p => iff_of_false (by rintro ⟨⟩) fun h => h.1 rfl
      born := by
        rintro p - (⟨⟨⟩⟩ | ⟨-, hctx⟩)
        by_cases hp : p = init
        · subst hp
          exact if_pos rfl
        · have : (start κ ℓ χ init).ctx (.proc p) = .live := if_neg hp
          rw [this] at hctx
          cases hctx }
  states :=
    { on := fun h => absurd rfl h
      loading := by rintro c p ⟨⟩
      off := by
        intro p _ _
        by_cases hp : p = init
        · subst hp
          have hst : ((start κ ℓ χ p).proc p).state = .runnable := by simp [start]
          exact .inl ⟨hst, .inr ⟨rfl, if_pos rfl⟩⟩
        · have hst : ((start κ ℓ χ init).proc p).state = .unused := by simp [start, hp, blank]
          exact .inr (.inr ⟨.inl hst, rfl⟩) }

theorem inv_start : Inv (start κ ℓ χ init) (.start n κ ℓ) where
  core := core_start
  frozen := by rintro t ⟨⟩
  claims := ⟨by rintro (p | c) _ ⟨⟩, by rintro (p | c) _ _ _ _ ⟨⟩⟩
  fair := ⟨trivial, trivial⟩

/-! ## What the invariant says -/

theorem Fair.of_append {later earlier : List (Event n κ)} {e : Event n κ}
    (h : Fair (later ++ e :: earlier)) : e.Fair earlier := by
  induction later with
  | nil => exact h.1
  | cons e' later ih => exact ih h.2

/-- While nobody holds `p->lock`, a process runs exactly if it is the process of a processor. -/
theorem Core.running_iff (h : Core s V) (hl : s.lock (.proc p) = none) :
    (s.proc p).state = .running ↔ ∃ c, (s.cpu c).proc = some p := by
  have hfree : ∀ {t c}, s.cpuOf t = some c → .proc p ∉ (V t).held := by
    intro t c ht hmem
    rw [(h.locks _ c).mpr ⟨t, ht, hmem⟩] at hl
    cases hl
  constructor
  · intro hrun
    by_cases hnext : ∃ c, (V (.sched c)).place.next = some p
    · obtain ⟨c, hc⟩ := hnext
      exact ⟨c, (h.places.proc c p).mpr (Place.pick_of_next hc)⟩
    · cases hc : s.cpuOf (.proc p) with
      | some c =>
        refine ⟨c, (h.places.proc c p).mpr ?_⟩
        rw [h.places.guest hc]
        rfl
      | none =>
        rcases h.states.off hc fun c hc' => hnext ⟨c, hc'⟩ with
          ⟨hst, -⟩ | ⟨hst, -⟩ | ⟨hst | hst | hst, -⟩ <;> rw [hrun] at hst <;> cases hst
  · rintro ⟨c, hc⟩
    have hpick := (h.places.proc c p).mp hc
    rcases h.places.cases_of_pick hpick with hon | ⟨-, hon⟩
    · exact absurd ((h.shape _).held_pick hpick) (hfree hon)
    · have hp : (V (.proc p)).place = .run := by
        by_contra hne
        exact hfree hon ((h.shape _).held_proc hne)
      rw [h.states.on (by rw [hon]; rintro ⟨⟩), hp]
      rfl

/-! ## Every interleaving -/

variable [DecidableEq ℓ]

theorem tick_runs (h : v.Free) (hie : v.ie = false) :
    Runs (χ := χ) a v (tick timer) fun _ w => w = v := by
  cases timer with
  | false => rfl
  | true =>
    cases ht : a.thread with
    | proc p =>
      refine Safe.seq_eq (myproc_runs ht h.plain h.length_le) ?_
      exact yield_runs ht h
    | sched c =>
      refine Safe.seq_eq (myproc_runs_sched ht h.run h.length_le hie) ?_
      rfl

/-- A turn of the scheduler, which never ends. -/
theorem scheduler_runs_idle {c : κ} (ht : a.thread = .sched c) (h : v.Idle) :
    Runs (χ := χ) a v scheduler fun _ w => w.Idle := by
  rcases h with h | ⟨hout, -⟩
  · refine Safe.mono (scheduler_runs ht h) ?_
    rintro _ _ rfl
    exact .inl ⟨h.run, h.depth, h.held, h.claim⟩
  · refine Safe.bind (runs_same (Q := fun _ => False) fun s V x hcore hV _ => ?_)
      fun _ _ hw => hw.2.elim
    have hshape := hcore.shape (.sched c)
    rw [ht] at hV
    unfold Shape at hshape
    simp only [hV, hout] at hshape
    obtain ⟨_, ⟨⟩, -⟩ := hshape

variable [DecidableEq χ] {t₀ : Agent n κ} {cfg : Config (Agent n κ) Unit Halt (State n κ ℓ χ)}

/-- **`kerneltrap`** -/
theorem kerneltrap_runs {x : Work ℓ χ} (hbrief : x.ops.all Op.brief = true) :
    Runs (.irq t) v (kerneltrap x timer) fun _ w => w.Idle := by
  have hfree : (View.handler : View n κ ℓ).Free := View.handler_free
  refine Runs.seq enterIrq_runs (Runs.seq (run_runs_brief hfree (fun _ _ => rfl) hbrief)
    (Runs.seq (tick_runs hfree rfl) (Safe.mono (leaveIrq_runs hfree) ?_)))
  rintro _ _ rfl
  exact .inl hfree

theorem call_runs {call : Call ℓ χ} (hby : call.by a = true) (h : v.Idle) :
    Runs a v (call.code init) fun _ w => w.Idle := by
  cases call with
  | scheduler =>
    obtain ⟨t⟩ | ⟨t⟩ := a
    · cases t with
      | proc p => cases hby
      | sched c => exact scheduler_runs_idle rfl h
    · cases hby
  | forkret first =>
    obtain ⟨t⟩ | ⟨t⟩ := a
    · cases t with
      | proc p => exact forkret_runs h
      | sched c => cases hby
    · cases hby
  | usertrap close cause =>
    obtain ⟨t⟩ | ⟨t⟩ := a
    · cases t with
      | proc p => exact usertrap_runs h
      | sched c => cases hby
    · cases hby
  | kerneltrap x hbrief timer =>
    obtain ⟨t⟩ | ⟨t⟩ := a
    · cases t with
      | proc p => cases hby
      | sched c => cases hby
    · exact kerneltrap_runs hbrief

/-- **The invariant holds in every reachable state**, and the only panic is that of the first
process exiting. -/
theorem sound (hr : Reachable (system κ ℓ χ init)
      ((system κ ℓ χ init).powerOn (start κ ℓ χ init) t₀) cfg) :
    (∃ G, Inv cfg.shared G) ∧ ∀ a e, HaltsWith cfg a e → e = .initExiting :=
  guarded_of_reachable id (fun _ _ _ hmay _ hidle => call_runs hmay hidle) inv_start
    Ghost.start_idle rfl hr

/-! ## A machine with two processors and one process

On which the results below can be tried. -/

/-- Two processors and one slot. -/
def twoCpus : System (Agent 1 Bool) Unit Halt (State 1 Bool Unit Unit) := system Bool Unit Unit 0

instance : ∀ a c s, Decidable (twoCpus.may a c s) :=
  fun a c _ => inferInstanceAs (Decidable (Call.by c a = true))

/-- So many actions of one agent. -/
def acts (a : Agent 1 Bool) (k : ℕ) : List (Move (Agent 1 Bool) (Call Unit Unit)) :=
  List.replicate k (.act a)

/-- One processor finds the first process, switches to it, and the process returns to user mode. -/
def firstProcess : List (Move (Agent 1 Bool) (Call Unit Unit)) :=
  .call (.main (.sched false)) .scheduler :: acts (.main (.sched false)) 9 ++
    .call (.main (.proc 0)) (.forkret none) :: acts (.main (.proc 0)) 8

/-- Whether the processor has the process, and nobody its lock. -/
def hasFirst (s : State 1 Bool Unit Unit) : Bool :=
  decide ((s.cpu false).proc = some 0 ∧ s.lock (.proc 0) = none)

theorem firstProcess_runs :
    ((twoCpus.play firstProcess (twoCpus.powerOn (start Bool Unit Unit 0) (.irq (.proc 0)))).any
      fun cfg => hasFirst cfg.shared) = true := by
  decide +kernel

/-! ## The results -/

/-- **A process runs on at most one processor.** No two processors have the same process, and while
nobody holds its lock a process is `RUNNING` exactly if a processor has it. A processor that
switches to a process holds its lock, and the context has been saved completely or is that of a new
process. `freeproc` is applied only to processes that no processor has and no processor runs. And no
context is ever loaded while it is in use. -/
theorem one_cpu_per_process (hr : Reachable (system κ ℓ χ init)
      ((system κ ℓ χ init).powerOn (start κ ℓ χ init) t₀) cfg) :
    (∀ c c' p, (cfg.shared.cpu c).proc = some p → (cfg.shared.cpu c').proc = some p → c = c') ∧
    (∀ p, cfg.shared.lock (.proc p) = none →
      ((cfg.shared.proc p).state = .running ↔ ∃ c, (cfg.shared.cpu c).proc = some p)) ∧
    (∀ c p holder ctx, .switched c p holder ctx ∈ cfg.shared.hist →
      holder = some c ∧ (ctx = .saved ∨ ctx = .forkret)) ∧
    (∀ p procs cpu, .freed p procs cpu ∈ cfg.shared.hist →
      (∀ c, procs c ≠ some p) ∧ cpu = none) ∧
    ∀ a, ¬ HaltsWith cfg a .torn := by
  obtain ⟨⟨G, hI⟩, hhalt⟩ := sound hr
  have hfair : ∀ {e}, e ∈ cfg.shared.hist → ∃ earlier, e.Fair earlier := by
    intro e he
    obtain ⟨later, earlier, hsplit⟩ := List.append_of_mem he
    exact ⟨earlier, Fair.of_append (hsplit ▸ hI.fair)⟩
  refine ⟨fun c c' p hc hc' => ?_, fun p hl => hI.core.running_iff hl, fun c p holder ctx he => ?_,
    fun p procs cpu he => ?_, fun a ha => ?_⟩
  · exact hI.core.places.unique ((hI.core.places.proc c p).mp hc)
      ((hI.core.places.proc c' p).mp hc')
  · obtain ⟨_, h⟩ := hfair he
    exact h
  · obtain ⟨_, h⟩ := hfair he
    exact h
  · cases hhalt a _ ha

/-- The process that a processor has, after that run: it is the only processor that has it, and the
process is `RUNNING`. -/
theorem one_cpu_per_process_firstProcess :
    ∃ cfg, Reachable twoCpus (twoCpus.powerOn (start Bool Unit Unit 0) (.irq (.proc 0))) cfg ∧
      (cfg.shared.cpu false).proc = some 0 ∧ (cfg.shared.cpu true).proc ≠ some 0 ∧
      (cfg.shared.proc 0).state = .running := by
  obtain ⟨cfg, hr, hproc, hlock⟩ := exists_of_play _ firstProcess_runs
  obtain ⟨hone, hrunning, -⟩ := one_cpu_per_process hr
  refine ⟨cfg, hr, hproc, fun htrue => ?_, (hrunning 0 hlock).mpr ⟨false, hproc⟩⟩
  cases hone false true 0 hproc htrue

/-- **Interrupts are restored thread by thread.** While `push_off`s are open on a processor its
interrupts are off. The `pop_off` that closes the outermost `push_off` of a thread, on whichever
processor it runs then, leaves the interrupt-enable bit as it was just before. And no `pop_off` on
the stack of a scheduler turns interrupts on. -/
theorem interrupts_restored (hr : Reachable (system κ ℓ χ init)
      ((system κ ℓ χ init).powerOn (start κ ℓ χ init) t₀) cfg) :
    (∀ c, 0 < (cfg.shared.cpu c).noff → (cfg.shared.cpu c).sie = false) ∧
    (∀ later t now earlier was, cfg.shared.hist = later ++ .popped t now :: earlier →
      opened t earlier = [some was] → now = was) ∧
    ∀ c now, .popped (.sched c) now ∈ cfg.shared.hist → now = false := by
  obtain ⟨⟨G, hI⟩, -⟩ := sound hr
  refine ⟨fun c hc => ?_, fun later t now earlier was hsplit hopen => ?_, fun c now he => ?_⟩
  · obtain ⟨t, ht⟩ := hI.core.places.exists_stack c
    rw [hI.core.irqs.noff ht] at hc
    rw [hI.core.irqs.sie ht, decide_eq_false hc.ne', Bool.false_and]
  · have hfair : (Event.popped t now).Fair earlier := Fair.of_append (hsplit ▸ hI.fair)
    exact hfair.1 was hopen
  · obtain ⟨later, earlier, hsplit⟩ := List.append_of_mem he
    have hfair : (Event.popped (.sched c) now).Fair earlier := Fair.of_append (hsplit ▸ hI.fair)
    exact hfair.2 c rfl

/-- The process then makes a system call in which it opens and closes one `push_off`. -/
def oneSyscall : List (Move (Agent 1 Bool) (Call Unit Unit)) :=
  firstProcess ++ .call (.main (.proc 0))
    (.usertrap ⟨[], rfl⟩ (.syscall (.other ⟨[.pushOff, .popOff], rfl⟩))) ::
    acts (.main (.proc 0)) 12

/-- Whether the last event is a `pop_off` of the process that closes its only `push_off`, before
which interrupts were on. -/
def closes : List (Event 1 Bool) → Bool
  | .popped t _ :: earlier => decide (t = .proc 0 ∧ opened t earlier = [some true])
  | _ => false

theorem closes_eq_true {hist : List (Event 1 Bool)} (h : closes hist = true) :
    ∃ now earlier, hist = .popped (.proc 0) now :: earlier ∧
      opened (.proc 0) earlier = [some true] := by
  unfold closes at h
  split at h
  · obtain ⟨rfl, hopen⟩ := of_decide_eq_true h
    exact ⟨_, _, rfl, hopen⟩
  · cases h

theorem oneSyscall_runs :
    ((twoCpus.play oneSyscall (twoCpus.powerOn (start Bool Unit Unit 0) (.irq (.proc 0)))).any
      fun cfg => closes cfg.shared.hist) = true := by
  decide +kernel

/-- The `pop_off` of that system call turns interrupts on again. -/
theorem interrupts_restored_oneSyscall :
    ∃ cfg now earlier,
      Reachable twoCpus (twoCpus.powerOn (start Bool Unit Unit 0) (.irq (.proc 0))) cfg ∧
      cfg.shared.hist = .popped (.proc 0) now :: earlier ∧
      opened (.proc 0) earlier = [some true] ∧ now = true := by
  obtain ⟨cfg, hplay, htest⟩ := (Option.any_eq_true _ _).mp oneSyscall_runs
  obtain ⟨now, earlier, hhist, hopen⟩ := closes_eq_true htest
  have hr := reachable_play hplay
  exact ⟨cfg, now, earlier, hr, hhist, hopen,
    (interrupts_restored hr).2.1 [] _ _ _ _ hhist hopen⟩

/-- **Spinlocks.** In every interleaving, a processor has a `push_off` open for each spinlock that
it holds, and interrupts off while it holds one. And of all assertions, those of `acquire`,
`release`, `pop_off` and `sched` among them, only that the first process does not exit can fail. -/
theorem spinlock_discipline (hr : Reachable (system κ ℓ χ init)
      ((system κ ℓ χ init).powerOn (start κ ℓ χ init) t₀) cfg) :
    (∀ c (ls : List (Lock n ℓ)), ls.Nodup → (∀ l ∈ ls, cfg.shared.lock l = some c) →
      ls.length ≤ (cfg.shared.cpu c).noff ∧ (ls ≠ [] → (cfg.shared.cpu c).sie = false)) ∧
    {e | ∃ a, HaltsWith cfg a e} ⊆ {.initExiting} := by
  obtain ⟨⟨G, hI⟩, hhalt⟩ := sound hr
  refine ⟨fun c ls hnd hls => ?_, fun e ⟨a, ha⟩ => hhalt a e ha⟩
  obtain ⟨t, ht⟩ := hI.core.places.exists_stack c
  have hheld : ls ⊆ (top cfg.shared G t).held := by
    intro l hl
    obtain ⟨u, hu, hmem⟩ := (hI.core.locks l c).mp (hls l hl)
    rwa [hI.core.places.one ht hu]
  have hle := (List.subperm_of_subset hnd hheld).length_le.trans (hI.core.shape t).held_le
  rw [hI.core.irqs.noff ht, hI.core.irqs.sie ht]
  refine ⟨hle, fun hne => ?_⟩
  have hpos := (List.length_pos_of_ne_nil hne).trans_le hle
  simp [hpos.ne']

/-- A scheduler holds the lock of the process it has picked. -/
theorem spinlock_discipline_picked :
    ∃ cfg, Reachable twoCpus (twoCpus.powerOn (start Bool Unit Unit 0) (.irq (.proc 0))) cfg ∧
      cfg.shared.lock (.proc 0) = some false ∧ 1 ≤ (cfg.shared.cpu false).noff := by
  refine (exists_of_play
    (firstProcess.take 6) (by decide +kernel)).imp fun cfg ⟨hr, hl⟩ => ⟨hr, hl, ?_⟩
  exact ((spinlock_discipline hr).1 _ [.proc 0] (by decide) (by simpa using hl)).1

end Sched

end TrinityXv6
