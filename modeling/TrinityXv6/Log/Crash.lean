import TrinityXv6.Log.Sound

/-!
# Crash atomicity

The machine refines `Spec`, an array of blocks with atomic group commit. After a crash between any
two actions, of `commit`, of `recover_from_log` itself or of anything else, running
`recover_from_log` to its end leaves the durable contents of the abstract array in the home blocks.

Three facts say what those contents are. They change only at a commit point, the moment the first
`write_head` of a commit reaches the disk, and then to everything modified so far: a group is
applied as a whole or not at all. And once an `end_op` has returned after its commit, they include
all the group wrote.

## Main results

* `crash_atomicity` — recovery, commit points and returned commits
-/

namespace TrinityXv6

namespace Log

open Threads

/-! ## The abstract array along a history -/

section Spec

variable {τ : Type} {d₀ : ℕ → Blk} {A B : List (Event τ)}

/-- The durable contents are what was modified up to the last commit point. -/
theorem durable_eq_of_last_commitPoint (hA : .commitPoint ∉ A) :
    (spec d₀ (A ++ .commitPoint :: B)).durable = (spec d₀ B).volatile := by
  induction A with
  | nil => rfl
  | cons e A ih =>
    have ih := ih fun hc => hA (.tail _ hc)
    cases e with
    | commitPoint => exact absurd (.head _) hA
    | _ => exact ih

/-- Before the first commit point, nothing but the initial disk is durable. -/
theorem durable_eq_of_no_commitPoint (hA : .commitPoint ∉ A) : (spec d₀ A).durable = d₀ := by
  induction A with
  | nil => rfl
  | cons e A ih =>
    have ih := ih fun hc => hA (.tail _ hc)
    cases e with
    | commitPoint => exact absurd (.head _) hA
    | _ => exact ih

/-- What is durable stays so until it is modified. -/
theorem durable_eq_of_not_modified {b : ℕ} {d : Blk} (hd : (spec d₀ B).durable b = d)
    (hv : (spec d₀ B).volatile b = d) (hA : ∀ t x, .modify t b x ∉ A) :
    (spec d₀ (A ++ B)).durable b = d := by
  suffices h : (spec d₀ (A ++ B)).durable b = d ∧ (spec d₀ (A ++ B)).volatile b = d from h.1
  induction A with
  | nil => exact ⟨hd, hv⟩
  | cons e A ih =>
    obtain ⟨ihd, ihv⟩ := ih fun t x hc => hA t x (.tail _ hc)
    cases e with
    | modify t c x =>
      have hne : b ≠ c := by
        rintro rfl
        exact hA t x (.head _)
      exact ⟨ihd, (Function.update_of_ne hne _ _).trans ihv⟩
    | commitPoint => exact ⟨ihv, ihv⟩
    | crash disk => exact ⟨ihd, ihd⟩
    | _ => exact ⟨ihd, ihv⟩

/-- A commit that an `end_op` completed left its group on the disk and durable. -/
theorem HistOk.durable_of_installed {start b : ℕ} {disk : ℕ → Blk}
    (h : HistOk start d₀ (A ++ .installed disk :: B)) (hb : Home start b)
    (hA : ∀ t x, .modify t b x ∉ A) : (spec d₀ (A ++ .installed disk :: B)).durable b = disk b ∧
      disk b = (spec d₀ B).volatile b := by
  obtain ⟨-, hinst⟩ := h.tail
  obtain ⟨-, hd, hv⟩ := hinst b hb
  exact ⟨durable_eq_of_not_modified hd hv hA, hv.symm⟩

end Spec

variable {τ : Type} [DecidableEq τ] {start : ℕ} {d₀ : ℕ → Blk} {R : Rules} {t₀ : τ}

/-- **Crash atomicity of the log.** In every state that any number of clients can reach, with any
number of crashes on the way, in the middle of a commit or of a recovery:

* if the machine crashes now, `recover_from_log` runs to its end and leaves the durable contents
  in the home blocks;
* so has every recovery that ever completed;
* the durable contents are what had been modified at the last commit point, all of it, and what
  the machine started with if there was none;
* if an `end_op` has returned after its commit, everything modified until then was on the disk,
  and a block not modified since is still durable with those contents. -/
theorem crash_atomicity (h0 : headN (d₀ start) = 0) {cfg : Config τ Chan Halt (State τ)}
    (h : Reachable (system start R) (boot start R d₀ t₀) cfg) :
    (∀ t, ∃ s', (recoverFromLog start).solo t cfg.shared.crash = some ((), s') ∧
      ∀ b, Home start b → s'.disk b = (spec d₀ cfg.shared.hist).durable b) ∧
    (∀ A B disk, cfg.shared.hist = A ++ .recovered disk :: B →
      ∀ b, Home start b → disk b = (spec d₀ B).durable b) ∧
    (∀ A B, cfg.shared.hist = A ++ .commitPoint :: B → .commitPoint ∉ A →
      (spec d₀ cfg.shared.hist).durable = (spec d₀ B).volatile) ∧
    (.commitPoint ∉ cfg.shared.hist → (spec d₀ cfg.shared.hist).durable = d₀) ∧
    (∀ A B disk t, cfg.shared.hist = A ++ .installed disk :: .endRet t :: B →
      ∀ b, Home start b → (∀ u x, .modify u b x ∉ A) →
        (spec d₀ cfg.shared.hist).durable b = disk b ∧ disk b = (spec d₀ B).volatile b) := by
  obtain ⟨G, hI⟩ := inv_of_reachable h0 h
  have hok := hI.hist.ok
  refine ⟨fun t => recovery_completes hI t, fun A B disk hh b hb => ?_, fun A B hh hA => ?_,
    fun hA => durable_eq_of_no_commitPoint hA, fun A B disk t hh b hb hA => ?_⟩
  · rw [hh] at hok
    exact hok.tail.2 b hb
  · rw [hh, durable_eq_of_last_commitPoint hA]
  · rw [hh] at hok ⊢
    exact hok.durable_of_installed hb hA

/-- A crash in `install_trans`, right before the `bwrite` of the only block of the group: the disk
still has the old contents, and recovery replaces them. -/
theorem crash_atomicity_before_install :
    ∃ cfg, Reachable (system 2 ⟨True, True⟩) (boot 2 ⟨True, True⟩ (fun _ _ => 0) ()) cfg ∧
      cfg.shared.committer = some () ∧ cfg.shared.disk 50 0 = 0 ∧
      ∃ s', (recoverFromLog 2).solo () cfg.shared.crash = some ((), s') ∧ s'.disk 50 0 = 1 := by
  have hrun : ((system 2 ⟨True, True⟩).partway (.fresh (fun _ _ => 0) []) ()
      oneBlock () .endOp 32).any (fun r => r.2.committer = some () ∧ r.2.disk 50 0 = 0 ∧
        (spec (fun _ _ => 0) r.2.hist).durable 50 0 = 1) = true := by
    decide +kernel
  obtain ⟨s, th, hr, -, hcom, hold, hdur⟩ := exists_of_partway hrun
  obtain ⟨s', hs', hdisk⟩ := (crash_atomicity (by decide) hr).1 ()
  refine ⟨_, hr, hcom, hold, s', hs', ?_⟩
  rw [hdisk 50 (by decide)]
  exact hdur

end Log

end TrinityXv6
