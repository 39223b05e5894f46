import TrinityXv6.Log.Code

/-!
# Waiters on the log are woken

Processes sleep on `&log` in two places. `begin_op` waits while a commit is in progress or the log
may be too small for one more operation, and `sys_sync` waits for a commit to complete. Whatever
ends such a wait also wakes the channel, in the same critical section: an `end_op` that does not
commit, and the end of a commit.

What makes this more than a look at these two places is that `log.lh.n` is also cleared without
`log.lock`, twice: in a commit, during which `committing` is set, and at boot, when there is nobody
to wait.

## Main results

* `Log.log_waiters_woken` — a process that sleeps on `&log` has something to wait for
-/

namespace TrinityXv6

namespace Log

open Threads
open Function (update update_eq_self update_of_ne update_self)

variable {τ : Type} {start : ℕ} {R : Rules}

/-- `begin_op` has to wait. -/
def State.Busy (s : State τ) : Prop :=
  s.log.committing = true ∨
    (logBlocks : ℤ) < s.log.lh.n + (s.log.outstanding + 1) * maxOpBlocks

/-- A change under which nobody's wait on `&log` is over. -/
def NoNews (s s' : State τ) : Prop := (s.Busy → s'.Busy) ∧ s'.log.ncommit = s.log.ncommit

/-! ## Code that leaves the log alone -/

/-- The log is as it was. -/
def SameLog (s s' : State τ) : Prop := s'.log = s.log ∧ s'.up = s.up

/-- At most the header has changed. -/
def SameButHeader (s s' : State τ) : Prop :=
  s'.log.committing = s.log.committing ∧ s'.log.ncommit = s.log.ncommit ∧ s'.up = s.up

theorem SameLog.sameButHeader {s s' : State τ} (h : SameLog s s') : SameButHeader s s' := by
  obtain ⟨hl, hu⟩ := h
  exact ⟨by rw [hl], by rw [hl], hu⟩

theorem SameLog.noNews {s s' : State τ} (h : SameLog s s') : NoNews s s' := by
  obtain ⟨hl, -⟩ := h
  refine ⟨fun hb => ?_, by rw [hl]⟩
  rw [State.Busy, hl]
  exact hb

/-- An outcome with one of these changes, or a wait for something else. -/
def Spares {α : Type} (P : State τ → State τ → Prop) (s : State τ) : Out τ α → Prop
  | .done _ s' _ => P s s'
  | .sleep c => c ≠ .log
  | .halt _ => True

/-- A program that makes only these changes, and does not wait for the log. -/
def Quiet {α : Type} (P : State τ → State τ → Prop) (p : M τ α) : Prop :=
  p.Within P ∧ p.Shuns .log

namespace Quiet

variable {α β : Type} {P P' : State τ → State τ → Prop} {p : M τ α}

theorem ret (a : α) : Quiet P (pure a : M τ α) := ⟨trivial, trivial⟩

theorem atomic {f : τ → State τ → Out τ α} (h : ∀ t s, Spares P s (f t s)) :
    Quiet P (.atomic f) := by
  refine ⟨⟨fun t s b s' w hf => ?_, fun _ => trivial⟩, fun t s hf => ?_, fun _ => trivial⟩
  · exact (hf ▸ h t s : Spares P s (.done b s' w))
  · exact (hf ▸ h t s : Spares P s (.sleep .log : Out τ α)) rfl

theorem bind {q : α → M τ β} (hp : Quiet P p) (hq : ∀ a, Quiet P (q a)) : Quiet P (p >>= q) :=
  ⟨hp.1.bind fun a => (hq a).1, hp.2.bind fun a => (hq a).2⟩

theorem mono (h : Quiet P p) (hP : ∀ s s', P s s' → P' s s') : Quiet P' p :=
  ⟨h.1.mono hP, h.2⟩

/-- An action that always completes. -/
theorem done {f : τ → State τ → Out τ α}
    (h : ∀ t s, ∃ b s' w, f t s = .done b s' w ∧ P s s') : Quiet P (.atomic f) := by
  refine atomic fun t s => ?_
  obtain ⟨b, s', w, hf, hP⟩ := h t s
  rw [hf]
  exact hP

theorem header (h : Quiet SameLog p) : Quiet SameButHeader p :=
  h.mono fun _ _ => SameLog.sameButHeader

end Quiet

section Code

theorem quiet_bread (dev b : ℕ) : Quiet SameLog (bread dev b : M τ BufId) := by
  refine .bind
    (.bind (.atomic fun t s => ?_) fun i => .bind (.atomic fun t s => ?_) fun _ => .ret i)
    fun i => .bind (.done fun t s => ⟨_, _, _, rfl, rfl, rfl⟩) fun _ => .ret i
  · unfold bgetLocked
    split
    · trivial
    · exact ⟨rfl, rfl⟩
    · split
      · trivial
      · exact ⟨rfl, rfl⟩
      · trivial
  · unfold acquiresleep
    split
    · exact ⟨rfl, rfl⟩
    · rintro ⟨⟩

theorem quiet_getN : Quiet SameLog (getN : M τ ℕ) := .done fun _ _ => ⟨_, _, _, rfl, rfl, rfl⟩

theorem quiet_getBlock (k : ℕ) : Quiet SameLog (getBlock k : M τ ℕ) :=
  .done fun _ _ => ⟨_, _, _, rfl, rfl, rfl⟩

theorem quiet_memmove (dst src : BufId) (k : CopyKind) :
    Quiet SameLog (memmove dst src k : M τ Unit) := .done fun _ _ => ⟨_, _, _, rfl, rfl, rfl⟩

theorem quiet_bunpin (i : BufId) : Quiet SameLog (bunpin i : M τ Unit) :=
  .done fun _ _ => ⟨_, _, _, rfl, rfl, rfl⟩

theorem quiet_modify (i : BufId) (d : Blk) : Quiet SameLog (modify i d : M τ Unit) :=
  .done fun _ _ => ⟨_, _, _, rfl, rfl, rfl⟩

theorem quiet_clearN : Quiet SameButHeader (clearN : M τ Unit) :=
  .done fun _ _ => ⟨_, _, _, rfl, rfl, rfl, rfl⟩

variable [DecidableEq τ]

theorem quiet_bwrite (i : BufId) (es : List (Event τ)) : Quiet SameLog (bwrite i es) := by
  refine .atomic fun t s => ?_
  split_ifs
  · exact ⟨rfl, rfl⟩
  · trivial

theorem quiet_brelse (i : BufId) : Quiet SameLog (brelse i : M τ Unit) := by
  refine .bind (.atomic fun t s => ?_) fun _ => .atomic fun t s => ?_
  · unfold releasesleep
    split_ifs
    · exact ⟨rfl, rfl⟩
    · trivial
  · unfold dropRef
    split_ifs <;> exact ⟨rfl, rfl⟩

theorem quiet_installFrom (recovering : Bool) (tail cnt : ℕ) :
    Quiet SameLog (installFrom start recovering tail cnt : M τ Unit) := by
  induction cnt generalizing tail with
  | zero => exact .ret ()
  | succ cnt ih =>
    refine .bind (quiet_bread _ _) fun lbuf => .bind (quiet_getBlock _) fun b =>
      .bind (quiet_bread _ _) fun dbuf => .bind (quiet_memmove _ _ _) fun _ =>
      .bind (quiet_bwrite _ _) fun _ => ?_
    have hrest : Quiet SameLog (do
        brelse lbuf
        brelse dbuf
        installFrom start recovering (tail + 1) cnt : M τ Unit) :=
      .bind (quiet_brelse _) fun _ => .bind (quiet_brelse _) fun _ => ih (tail + 1)
    by_cases hr : recovering = false
    · rw [if_pos hr]
      exact .bind (quiet_bunpin _) fun _ => hrest
    · rw [if_neg hr]
      exact hrest

theorem quiet_writeLogFrom (tail cnt : ℕ) :
    Quiet SameLog (writeLogFrom start tail cnt : M τ Unit) := by
  induction cnt generalizing tail with
  | zero => exact .ret ()
  | succ cnt ih =>
    exact .bind (quiet_bread _ _) fun _ => .bind (quiet_getBlock _) fun _ =>
      .bind (quiet_bread _ _) fun _ => .bind (quiet_memmove _ _ _) fun _ =>
      .bind (quiet_bwrite _ _) fun _ => .bind (quiet_brelse _) fun _ =>
      .bind (quiet_brelse _) fun _ => ih (tail + 1)

theorem quiet_installTrans (recovering : Bool) :
    Quiet SameLog (installTrans start recovering : M τ Unit) :=
  .bind quiet_getN fun _ => quiet_installFrom _ _ _

theorem quiet_writeLog : Quiet SameLog (writeLog start : M τ Unit) :=
  .bind quiet_getN fun _ => quiet_writeLogFrom _ _

theorem quiet_writeHead (es : List (Event τ)) : Quiet SameLog (writeHead start es) :=
  .bind (quiet_bread _ _) fun _ => .bind (.done fun _ _ => ⟨_, _, _, rfl, rfl, rfl⟩) fun _ =>
    .bind (quiet_bwrite _ _) fun _ => quiet_brelse _

theorem quiet_readHead : Quiet SameButHeader (readHead start : M τ Unit) := by
  refine .bind (quiet_bread _ _).header fun _ => .bind (.atomic fun t s => ?_) fun _ =>
    (quiet_brelse _).header
  split_ifs
  · exact ⟨rfl, rfl, rfl⟩
  · trivial

/-- A commit changes at most the header. -/
theorem quiet_commit : Quiet SameButHeader (commit start : M τ Unit) := by
  refine .bind quiet_getN.header fun n => ?_
  by_cases hn : 0 < n
  · rw [if_pos hn]
    exact .bind quiet_writeLog.header fun _ => .bind (quiet_writeHead _).header fun _ =>
      .bind (quiet_installTrans _).header fun _ => .bind quiet_clearN fun _ =>
      (quiet_writeHead _).header
  · rw [if_neg hn]
    exact .ret ()

/-- So does the recovery at boot. -/
theorem quiet_recoverFromLog : Quiet SameButHeader (recoverFromLog start : M τ Unit) :=
  .bind quiet_readHead fun _ => .bind (quiet_installTrans _).header fun _ =>
    .bind quiet_clearN fun _ => (quiet_writeHead _).header

end Code

/-! ## Who is where -/

/-- Where a process is: it has not made a call since the machine started, it boots the machine, it
makes calls, or it is inside `commit`. -/
inductive Phase where
  | out
  | boot
  | call
  | commit
  deriving DecidableEq

/-- A process between two calls. -/
def Phase.Idle (g : Phase) : Prop := g = .out ∨ g = .call

/-- One process boots, and then none; and `committing` says that one is inside `commit`. -/
structure Phases (s : State τ) (G : τ → Phase) : Prop where
  down : s.up = false → ∀ u, G u = .out ∨ G u = .boot
  boot : ∀ u, G u = .boot → s.up = false
  boot_unique : ∀ u v, G u = .boot → G v = .boot → u = v
  committing : s.log.committing = true ↔ ∃ u, G u = .commit
  commit_unique : ∀ u v, G u = .commit → G v = .commit → u = v

section Phases

variable {s s' : State τ} {G : τ → Phase} {t : τ}

theorem Phases.congr (h : Phases s G) (hc : s'.log.committing = s.log.committing)
    (hu : s'.up = s.up) : Phases s' G where
  down hup := h.down (hu ▸ hup)
  boot u hb := hu.trans (h.boot u hb)
  boot_unique := h.boot_unique
  committing := by rw [hc]; exact h.committing
  commit_unique := h.commit_unique

theorem Phases.up_of_ne (h : Phases s G) (ho : G t ≠ .out) (hb : G t ≠ .boot) : s.up = true := by
  by_contra hup
  rcases h.down (Bool.eq_false_iff.mpr hup) t with ht | ht
  · exact ho ht
  · exact hb ht

variable [DecidableEq τ] {g : Phase}

theorem update_call {u : τ} (hg : g ≠ .call) (h : update G t .call u = g) : u ≠ t ∧ G u = g := by
  rcases update_cases (f := id) h with ⟨-, hnew⟩ | h
  · exact absurd hnew.symm hg
  · exact h

/-- A process goes on with calls while the machine is up, and nobody else is affected. -/
theorem Phases.call (h : Phases s G) (hup : s'.up = true) (hdown : s.up = false → G t = .boot)
    (hc : s'.log.committing = true ↔ ∃ u, u ≠ t ∧ G u = .commit) :
    Phases s' (update G t .call) where
  down hd := by
    rw [hup] at hd
    cases hd
  boot u hu := by
    -- another process that boots means that the machine was down, so that `t` boots it
    obtain ⟨hut, hu⟩ := update_call (by decide) hu
    exact absurd (h.boot_unique u t hu (hdown (h.boot u hu))) hut
  boot_unique u v hu hv :=
    h.boot_unique u v (update_call (by decide) hu).2 (update_call (by decide) hv).2
  committing := by
    rw [hc]
    constructor
    · rintro ⟨u, hut, hu⟩
      exact ⟨u, by rwa [update_of_ne hut]⟩
    · rintro ⟨u, hu⟩
      exact ⟨u, update_call (by decide) hu⟩
  commit_unique u v hu hv :=
    h.commit_unique u v (update_call (by decide) hu).2 (update_call (by decide) hv).2

/-- A process makes its next call. -/
theorem Phases.enter (h : Phases s G) (hup : s.up = true) (ht : (G t).Idle) :
    Phases s (update G t .call) := by
  refine h.call hup (fun hd => ?_) ?_
  · rw [hup] at hd
    cases hd
  · rw [h.committing]
    refine exists_congr fun u => ⟨fun hu => ⟨?_, hu⟩, And.right⟩
    rintro rfl
    rw [Phase.Idle, hu] at ht
    rcases ht with ht | ht <;> cases ht

/-- A process begins to commit. -/
theorem Phases.commit (h : Phases s G) (ht : G t = .call) (hc : s.log.committing = false)
    (hc' : s'.log.committing = true) (hu : s'.up = s.up) : Phases s' (update G t .commit) := by
  have hup : s.up = true := h.up_of_ne (by rw [ht]; decide) (by rw [ht]; decide)
  have hnone : ∀ u, G u ≠ .commit := by
    intro u hcu
    have := h.committing.mpr ⟨u, hcu⟩
    rw [hc] at this
    cases this
  have hself : ∀ u, update G t .commit u = .commit → u = t := by
    intro u hcu
    by_contra hut
    rw [update_of_ne hut] at hcu
    exact hnone u hcu
  have hboot : ∀ u, update G t .commit u = .boot → False := by
    intro u hb
    obtain ⟨rfl, ⟨⟩⟩ | ⟨-, hb⟩ := update_cases (f := id) hb
    cases hup.symm.trans (h.boot u hb)
  refine ⟨fun hd => ?_, fun u hb => (hboot u hb).elim, fun u v hb _ => (hboot u hb).elim, ?_,
    fun u v hcu hcv => (hself u hcu).trans (hself v hcv).symm⟩
  · rw [hu, hup] at hd
    cases hd
  · exact iff_of_true hc' ⟨t, update_self ..⟩

/-! ## Programs that wake the waiters -/

/-- A program of process `t` that wakes whoever waits for the log. -/
abbrev WakesLog {α : Type} (t : τ) (Q : α → Phase → Prop) (p : M τ α) (g : Phase) : Prop :=
  Wakes Phases (· = .out) .log NoNews t Q p g

variable {α : Type} {p : M τ α}

/-- Code of a call that leaves the log alone. -/
theorem Quiet.wakes_call (h : Quiet SameLog p) (t : τ) :
    WakesLog t (fun _ g => g = .call) p .call :=
  h.1.wakes h.2 (by decide) (fun hI hs => hI.congr (by rw [hs.1]) hs.2)
    fun _ _ hs => .inl hs.noNews

/-- Code of a commit. -/
theorem Quiet.wakes_commit (h : Quiet SameButHeader p) (t : τ) :
    WakesLog t (fun _ g => g = .commit) p .commit := by
  refine h.1.wakes h.2 (by decide) (fun hI hs => hI.congr hs.1 hs.2.2) fun hI ht hs => .inl ?_
  have hc := hI.committing.mpr ⟨t, ht⟩
  exact ⟨fun _ => .inl (hs.1.trans hc), hs.2.1⟩

/-- Code that runs at boot. -/
theorem Quiet.wakes_boot (h : Quiet SameButHeader p) (t : τ) :
    WakesLog t (fun _ g => g = .boot) p .boot := by
  refine h.1.wakes h.2 (by decide) (fun hI hs => hI.congr hs.1 hs.2.2)
    fun hI ht hs => .inr fun u hu => ?_
  rcases hI.down (hI.boot t ht) u with hout | hboot
  · exact hout
  · exact absurd (hI.boot_unique u t hboot ht) hu

/-- One action. -/
theorem wakes_atomic {f : τ → State τ → Out τ α} {Q : α → Phase → Prop}
    (hg : g ≠ .out) (hs : ∀ s s', NoNews s s' → f t s = .sleep .log → f t s' = .sleep .log)
    (hd : ∀ s G, Phases s G → G t = g → ∀ b s' w, f t s = .done b s' w →
      (.log ∈ w ∨ NoNews s s') ∧ ∃ g', Phases s' (update G t g') ∧ Q b g') :
    WakesLog t Q (.atomic f) g := by
  refine ⟨hg, hs, fun s G hI hG b s' w hf => ?_⟩
  obtain ⟨hw, g', hI', hQ⟩ := hd s G hI hG b s' w hf
  exact ⟨hw.imp_right .inl, g', hI', hQ⟩

/-- One action of a process that stays where it is. -/
theorem wakes_stay {f : τ → State τ → Out τ α} (hg : g ≠ .out)
    (hs : ∀ s s', NoNews s s' → f t s = .sleep .log → f t s' = .sleep .log)
    (hd : ∀ s b s' w, f t s = .done b s' w →
      NoNews s s' ∧ s'.log.committing = s.log.committing ∧ s'.up = s.up) :
    WakesLog t (fun _ g' => g' = g) (.atomic f) g := by
  refine wakes_atomic hg hs fun s G hI hG b s' w hf => ?_
  obtain ⟨hn, hc, hu⟩ := hd s b s' w hf
  refine ⟨.inr hn, g, ?_, rfl⟩
  rw [← hG, update_eq_self]
  exact hI.congr hc hu

theorem wakes_beginOp : WakesLog t (fun _ g => g = .call) beginOp .call := by
  refine wakes_stay (by decide) (fun s s' hn hf => ?_) fun s b s' w hf => ?_
  · have hbusy : s.Busy := by
      by_contra hb
      obtain ⟨hc, hroom⟩ := not_or.mp hb
      rw [if_neg hc, if_neg hroom] at hf
      cases hf
    rcases hn.1 hbusy with hc | hroom
    · exact if_pos hc
    · by_cases hc : s'.log.committing = true
      · exact if_pos hc
      · rw [if_neg hc, if_pos hroom]
  · split_ifs at hf with hc hroom
    cases hf
    exact ⟨⟨fun hb => absurd hb (not_or.mpr ⟨hc, hroom⟩), rfl⟩, rfl, rfl⟩

theorem wakes_logWrite (i : BufId) : WakesLog t (fun _ g => g = .call) (logWrite i) .call := by
  refine wakes_stay (by decide) (fun s s' _ hf => ?_) fun s b s' w hf => ?_
  · simp only [logWriteLocked] at hf
    split_ifs at hf
  · -- the header may get longer, which makes nobody's wait shorter
    have hn : s'.log.committing = s.log.committing ∧ s'.log.ncommit = s.log.ncommit ∧
        s'.log.outstanding = s.log.outstanding ∧ s.log.lh.n ≤ s'.log.lh.n ∧ s'.up = s.up := by
      simp only [logWriteLocked] at hf
      split_ifs at hf <;> cases hf
      · exact ⟨rfl, rfl, rfl, Nat.le_succ _, rfl⟩
      · exact ⟨rfl, rfl, rfl, le_rfl, rfl⟩
    obtain ⟨hc, hcommit, hout, hle, hup⟩ := hn
    refine ⟨⟨fun hb => ?_, hcommit⟩, hc, hup⟩
    rw [State.Busy, hc, hout]
    refine hb.imp_right fun hroom => ?_
    have : (s.log.lh.n : ℤ) ≤ s'.log.lh.n := Int.ofNat_le.mpr hle
    omega

theorem wakes_endOp : WakesLog t (fun _ g => g = .call) (endOp start) .call := by
  refine Wakes.bind (Q := fun b g => g = if b then .commit else .call)
    (wakes_atomic (by decide) (fun s s' _ hf => ?_) fun s G hI hG b s' w hf => ?_) fun b g hg => ?_
  · simp only [endOpLocked] at hf
    split_ifs at hf
  · simp only [endOpLocked] at hf
    split_ifs at hf with hc hout <;> cases hf
    · refine ⟨.inr ⟨fun _ => .inl rfl, rfl⟩, .commit, ?_, rfl⟩
      exact hI.commit hG (Bool.eq_false_iff.mpr hc) rfl rfl
    · refine ⟨.inl (List.mem_singleton_self _), .call, ?_, rfl⟩
      rw [← hG, update_eq_self]
      exact hI.congr rfl rfl
  · cases b with
    | false =>
      subst hg
      rfl
    | true =>
      subst hg
      refine Wakes.bind (quiet_commit.wakes_commit t) ?_
      rintro - g rfl
      refine wakes_atomic (by decide) (fun s s' _ hf => ?_) fun s G hI hG b s' w hf => ?_ <;>
        (dsimp only at hf; split_ifs at hf)
      cases hf
      refine ⟨.inl (List.mem_singleton_self _), .call, ?_, rfl⟩
      have hup : s.up = true := hI.up_of_ne (by rw [hG]; decide) (by rw [hG]; decide)
      refine hI.call hup (fun hd => ?_) ?_
      · rw [hup] at hd
        cases hd
      · refine iff_of_false (by simp) ?_
        rintro ⟨u, hut, hu⟩
        exact hut (hI.commit_unique u t hu hG)

theorem wakes_sysSync : WakesLog t (fun _ g => g = .call) sysSync .call := by
  refine Wakes.bind (wakes_stay (by decide) (fun s s' _ hf => ?_) fun s b s' w hf => ?_) ?_
  · simp only [syncEnter] at hf
    split_ifs at hf
  · have hsame : SameLog s s' := by
      simp only [syncEnter] at hf
      split_ifs at hf <;> cases hf <;> exact ⟨rfl, rfl⟩
    exact ⟨hsame.noNews, by rw [hsame.1], hsame.2⟩
  · rintro (_ | n) g rfl
    · rfl
    · refine wakes_stay (by decide) (fun s s' hn hf => ?_) fun s b s' w hf => ?_
      · simp only [syncWait] at hf ⊢
        rw [hn.2]
        split_ifs at hf ⊢ with hlt
        rfl
      · simp only [syncWait] at hf
        split_ifs at hf
        cases hf
        exact ⟨⟨id, rfl⟩, rfl, rfl⟩

theorem wakes_call (x : Call) (t : τ) : WakesLog t (fun _ g => g = .call) (x.code start) .call := by
  cases x with
  | bread b => exact ((quiet_bread _ _).bind fun _ => .ret ()).wakes_call t
  | modify i d => exact (quiet_modify i d).wakes_call t
  | logWrite i => exact wakes_logWrite i
  | brelse i => exact (quiet_brelse i).wakes_call t
  | beginOp => exact wakes_beginOp
  | endOp => exact wakes_endOp
  | sysSync => exact wakes_sysSync

theorem wakes_boot : WakesLog t (fun _ g => g.Idle) (system start R).boot .boot := by
  refine Wakes.bind (quiet_recoverFromLog.wakes_boot t) ?_
  rintro - g rfl
  refine wakes_atomic (by decide) (fun s s' _ hf => by cases hf) fun s G hI hG b s' w hf => ?_
  cases hf
  refine ⟨.inr ⟨id, rfl⟩, .call, ?_, .inr rfl⟩
  refine hI.call rfl (fun _ => hG) ?_
  -- nobody commits at boot
  have hnone : ∀ u, G u ≠ .commit := by
    intro u hc
    have := hI.up_of_ne (by rw [hc]; decide) (by rw [hc]; decide)
    rw [hI.boot t hG] at this
    cases this
  refine iff_of_false (fun hc => ?_) ?_
  · obtain ⟨u, hu⟩ := hI.committing.mp hc
    exact hnone u hu
  · rintro ⟨u, -, hu⟩
    exact hnone u hu

/-- The processes of a machine that has just been switched on. -/
def bootPhase (t₀ u : τ) : Phase := if u = t₀ then .boot else .out

theorem phases_fresh (d : ℕ → Blk) (hist : List (Event τ)) (t₀ : τ) :
    Phases (State.fresh d hist) (bootPhase t₀) := by
  have hboot : ∀ u, bootPhase t₀ u = .boot → u = t₀ := by
    intro u hu
    by_contra hne
    rw [bootPhase, if_neg hne] at hu
    cases hu
  have hor : ∀ u, bootPhase t₀ u = .out ∨ bootPhase t₀ u = .boot := by
    intro u
    by_cases hu : u = t₀
    · exact .inr (if_pos hu)
    · exact .inl (if_neg hu)
  have hcommit : ∀ u, bootPhase t₀ u ≠ .commit := by
    intro u hu
    rcases hor u with h | h
    · rw [hu] at h
      cases h
    · rw [hu] at h
      cases h
  refine ⟨fun _ => hor, fun _ _ => rfl, fun u v hu hv => (hboot u hu).trans (hboot v hv).symm, ?_,
    fun u _ hu _ => absurd hu (hcommit u)⟩
  refine iff_of_false (by simp [State.fresh, LogState.zero]) ?_
  rintro ⟨u, hu⟩
  exact hcommit u hu

theorem attentive :
    Attentive (system (τ := τ) start R) Phases (· = .out) Phase.Idle .log NoNews where
  call := by
    intro t s G x hI hidle hmay
    refine ⟨.call, hI.enter hmay.1 hidle, ?_⟩
    have hcall : WakesLog t (fun _ g => g = .call) (x.code start) .call := wakes_call x t
    refine hcall.mono ?_
    rintro - g rfl
    exact .inr rfl
  reset := by
    intro s G t₀ _ _
    refine ⟨bootPhase t₀, phases_fresh _ _ t₀, fun u hu => .inl (if_neg hu), ?_⟩
    rw [bootPhase, if_pos rfl]
    exact wakes_boot

variable {d₀ : ℕ → Blk} {t₀ : τ} {cfg : Config τ Chan Halt (State τ)}

/-- **Log waiters are always woken.** In every reachable state, a process that is asleep on `&log`
inside `begin_op` is kept there by a commit in progress or by the reservations of the open
operations, and one inside `sys_sync` waits for a commit that is not complete. -/
theorem log_waiters_woken (h : Reachable (system start R) (boot start R d₀ t₀) cfg)
    (hm : (cfg.threads t).mode = .asleep) (hc : (cfg.threads t).chan = some .log) :
    ((cfg.threads t).code = beginOp → ¬ (cfg.shared.log.committing = false ∧
      cfg.shared.log.lh.n + (cfg.shared.log.outstanding + 1) * maxOpBlocks ≤ logBlocks)) ∧
    ∀ n, (cfg.threads t).code = .atomic (syncWait n) → cfg.shared.log.ncommit < n := by
  have hon : Attended Phases (· = .out) Phase.Idle .log NoNews (boot start R d₀ t₀) := by
    refine attended_powerOn (phases_fresh d₀ [] t₀) (fun u hu => .inl (if_neg hu)) ?_
    rw [bootPhase, if_pos rfl]
    exact wakes_boot
  have hw := (attentive.reachable hon h).waitsOn hm hc
  refine ⟨fun hcode => ?_, fun n hcode => ?_⟩
  · rw [hcode] at hw
    rintro ⟨hcom, hroom⟩
    have hf : (if cfg.shared.log.committing then .sleep .log
      else if (logBlocks : ℤ) < cfg.shared.log.lh.n +
        (cfg.shared.log.outstanding + 1) * maxOpBlocks then .sleep .log
      else .done () _ [] : Out τ Unit) = .sleep .log := hw
    rw [hcom, if_neg Bool.false_ne_true, if_neg (not_lt.mpr hroom)] at hf
    cases hf
  · rw [hcode] at hw
    have hf : syncWait n t cfg.shared = .sleep .log := hw
    rw [syncWait] at hf
    split_ifs at hf with hlt
    exact hlt

/-- Three operations are open, and a fourth process sleeps in `begin_op`. -/
theorem log_waiters_woken_fourth_process : ∃ cfg, Reachable (system 2 ⟨True, True⟩)
      (boot 2 ⟨True, True⟩ (fun _ _ => 0) (0 : Fin 4)) cfg ∧
    (cfg.threads 3).code = beginOp ∧ (cfg.threads 3).mode = .asleep ∧
    (cfg.threads 3).chan = some .log ∧ ¬ (cfg.shared.log.committing = false ∧
      cfg.shared.log.lh.n + (cfg.shared.log.outstanding + 1) * maxOpBlocks ≤ logBlocks) := by
  have hrun : ((system (τ := Fin 4) 2 ⟨True, True⟩).serialFrom (.fresh (fun _ _ => 0) []) 0
      [(0, .beginOp), (1, .beginOp), (2, .beginOp)]).any (fun s =>
        s.up && !s.log.committing && decide (s.log.lh.n = 0 ∧ s.log.outstanding = 3) &&
        !(s.ops.any fun o => decide (o.1 = 3))) = true := by
    decide +kernel
  obtain ⟨s, hs, htest⟩ := (Option.any_eq_true _ _).mp hrun
  simp only [Bool.and_eq_true, Bool.not_eq_true', decide_eq_true_eq] at htest
  obtain ⟨⟨⟨hup, hcom⟩, hn, hout⟩, hops⟩ := htest
  obtain ⟨th, hr, hall⟩ := reachable_serialFrom hs
  have hmay : (system 2 ⟨True, True⟩).may 3 .beginOp s := by
    refine ⟨hup, fun hin => ?_⟩
    obtain ⟨o, ho, ho3⟩ := List.mem_map.mp hin
    rw [List.any_eq_false] at hops
    exact hops o ho (decide_eq_true ho3)
  have hwait : ((system 2 ⟨True, True⟩).code .beginOp).WaitsOn 3 .log s := by
    show (if s.log.committing then _ else if _ then _ else _) = _
    rw [hcom, if_neg Bool.false_ne_true, hn, hout]
    rfl
  obtain ⟨th', hr', hth⟩ := reachable_asleep (S := system 2 ⟨True, True⟩) .beginOp
    hall hmay hwait
  have hcode : (th' 3).code = beginOp := by rw [hth]; rfl
  have hmode : (th' 3).mode = .asleep := by rw [hth]
  have hchan : (th' 3).chan = some .log := by rw [hth]
  exact ⟨_, hr.trans hr', hcode, hmode, hchan,
    (log_waiters_woken (hr.trans hr') hmode hchan).1 hcode⟩

end Phases

end Log

end TrinityXv6
