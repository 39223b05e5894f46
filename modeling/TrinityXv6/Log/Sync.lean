import TrinityXv6.Log.Crash

/-!
# `sys_sync` is a durability barrier

`sys_sync` returns at once when the log is idle, and else waits for one increment of the counter of
commits. Since no operation is admitted while a commit is in progress, that one commit covers every
operation that had ended when `sys_sync` acquired the lock.

The number to wait for is computed in an `int`. It overflows after `2 ^ 31 - 1` commits; C says
nothing about that, and the machine of `TrinityXv6.Log.Code` stops there.

## Main results

* `sys_sync_barrier` — the barrier
-/

namespace TrinityXv6

namespace Log

open Threads

/-! ## Commits in a history -/

section History

variable {τ : Type} {u : τ} {C₁ C₂ : List (Event τ)}

/-- If no operation is waiting for a commit, then every operation that ended has seen one. -/
theorem Settled.exists_installed (h : Settled (C₁ ++ .endRet u :: C₂))
    (hc : ∀ disk, .crash disk ∉ C₁) : ∃ D E disk, C₁ = D ++ .installed disk :: E := by
  induction C₁ with
  | nil => exact h.elim
  | cons e C₁ ih =>
    have hc' : ∀ disk, .crash disk ∉ C₁ := fun disk hd => hc disk (.tail _ hd)
    have next : Settled (C₁ ++ .endRet u :: C₂) →
        ∃ D E disk, e :: C₁ = D ++ .installed disk :: E := fun hs => by
      obtain ⟨D, E, disk, rfl⟩ := ih hs hc'
      exact ⟨e :: D, E, disk, rfl⟩
    cases e with
    | installed disk => exact ⟨[], C₁, disk, rfl⟩
    | crash disk => exact absurd (.head _) (hc disk)
    | endRet v => exact h.elim
    | _ => exact next h

theorem HasCommit.exists_append {B : List (Event τ)} (h : HasCommit B) :
    ∃ D E disk, B = D ++ .installed disk :: E := by
  obtain ⟨disk, hd⟩ := h
  obtain ⟨D, E, rfl⟩ := List.append_of_mem hd
  exact ⟨D, E, disk, rfl⟩

end History

variable {τ : Type} [DecidableEq τ] {start : ℕ} {d₀ : ℕ → Blk} {R : Rules} {t₀ : τ}

/-- **`sys_sync` is a durability barrier.** Consider a `sys_sync` of process `t` that has returned,
with events `B` between its entry and its return and history `C` at its entry, and an `end_op` of
process `u` that had returned before that entry. Then a commit was completed after the return of
that `end_op` and before that of `sys_sync`; all that had been modified when it was completed was on
the disk; and what has not been modified since is still durable. -/
theorem sys_sync_barrier (h0 : headN (d₀ start) = 0) {cfg : Config τ Chan Halt (State τ)}
    (h : Reachable (system start R) (boot start R d₀ t₀) cfg)
    {A B C C₁ C₂ : List (Event τ)} {t u : τ}
    (hh : cfg.shared.hist = A ++ .syncRet t :: (B ++ .syncAcq t :: C)) (hB : NoSync t B)
    (hC : C = C₁ ++ .endRet u :: C₂) (hrun : ∀ disk, .crash disk ∉ C₁) :
    ∃ D E disk, B ++ .syncAcq t :: C₁ = D ++ .installed disk :: E ∧ ∀ b, Home start b →
      disk b = (spec d₀ (E ++ .endRet u :: C₂)).volatile b ∧
      ((∀ v x, .modify v b x ∉ D) →
        (spec d₀ (B ++ .syncAcq t :: C)).durable b = disk b) := by
  obtain ⟨G, hI⟩ := inv_of_reachable h0 h
  have hok := hI.hist.ok
  rw [hh] at hok
  obtain ⟨hok, hret⟩ := hok.tail
  -- a commit since the `end_op`: before `sys_sync` was entered, or during it
  have hinst : ∃ D E disk, B ++ .syncAcq t :: C₁ = D ++ .installed disk :: E := by
    rcases hret B C rfl hB with hset | hcom
    · obtain ⟨D, E, disk, rfl⟩ := Settled.exists_installed (hC ▸ hset) hrun
      exact ⟨B ++ .syncAcq t :: D, E, disk, by simp⟩
    · obtain ⟨D, E, disk, rfl⟩ := hcom.exists_append
      exact ⟨D, E ++ .syncAcq t :: C₁, disk, by simp⟩
  obtain ⟨D, E, disk, hD⟩ := hinst
  have hsplit : B ++ .syncAcq t :: C = D ++ .installed disk :: (E ++ .endRet u :: C₂) := by
    rw [hC, ← List.cons_append, ← List.append_assoc, hD]
    simp
  rw [hsplit] at hok ⊢
  refine ⟨D, E, disk, hD, fun b hb => ⟨?_, fun hmod => ?_⟩⟩
  · exact (hok.tail.2 b hb).2.2.symm
  · exact (hok.durable_of_installed hb hmod).1

/-- The barrier at a `sys_sync` that follows the commit of one block. -/
theorem sys_sync_barrier_one_block :
    ∃ cfg, Reachable (system 2 ⟨True, True⟩) (boot 2 ⟨True, True⟩ (fun _ _ => 0) ()) cfg ∧
      ∃ C₁ C₂, cfg.shared.hist = .syncRet () :: .syncAcq () :: (C₁ ++ .endRet () :: C₂) ∧
        ∃ D E disk, .syncAcq () :: C₁ = D ++ .installed disk :: E ∧
          ∀ b, Home 2 b → disk b = (spec (fun _ _ => 0) (E ++ .endRet () :: C₂)).volatile b := by
  have hrun : ((system 2 ⟨True, True⟩).serialFrom (.fresh (fun _ _ => 0) []) ()
      (oneBlock ++ [((), .endOp), ((), .sysSync)])).any (fun s => match s.hist with
          | .syncRet () :: .syncAcq () :: .installed _ :: .endRet () :: _ => true
          | _ => false) = true := by
    decide +kernel
  obtain ⟨s, hs, hmatch⟩ := (Option.any_eq_true _ _).mp hrun
  obtain ⟨th, hr, -⟩ := reachable_serialFrom hs
  split at hmatch
  next disk C hh =>
    have hC : .installed disk :: .endRet () :: C = [.installed disk] ++ .endRet () :: C := rfl
    obtain ⟨D, E, disk', hD, hall⟩ := sys_sync_barrier (A := []) (B := []) (by decide) hr hh
      (by simp [NoSync]) hC (by simp)
    exact ⟨_, hr, _, C, hh, D, E, disk', hD, fun b hb => (hall b hb).1⟩
  next => cases hmatch

end Log

end TrinityXv6
