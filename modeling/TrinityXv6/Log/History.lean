import TrinityXv6.Log.Code

/-!
# What the blocks should contain

The abstract side of the log, as functions of the history of events, newest first.

* `current` is the array of blocks a reader sees. A client's modification, a log block filled by a
  commit, a header block filled by `write_head` and a log block replayed at boot change it; a crash
  replaces it by what is on the disk; and nothing else does. In particular the `memmove` of
  `install_trans` at the end of a commit does not: it has to be without effect.
* `Spec` is an array of blocks with atomic group commit: the first `write_head` of a commit makes
  everything modified so far durable, all of it at once, and a crash loses what is not durable.

`Recoverable` is the relation between a disk and durable contents that a crash may not destroy:
the log area, read through the header block, completes the home blocks to those contents.
-/

namespace TrinityXv6

namespace Log

open Function (update update_self update_of_ne)

variable {τ : Type}

/-- The contents of the blocks as a client sees them, for a machine first started with disk
`d₀`. -/
def current (d₀ : ℕ → Blk) : List (Event τ) → ℕ → Blk
  | [] => d₀
  | .modify _ b d :: h => update (current d₀ h) b d
  | .copy .log b d :: h => update (current d₀ h) b d
  | .copy .replay b d :: h => update (current d₀ h) b d
  | .head b d :: h => update (current d₀ h) b d
  | .crash disk :: _ => disk
  | _ :: h => current d₀ h

/-- An array of blocks with atomic group commit. -/
structure Spec where
  /-- The contents after all groups committed so far. -/
  durable : ℕ → Blk
  /-- The contents after all modifications so far. -/
  volatile : ℕ → Blk

/-- What an event means for the abstract array. -/
def Spec.step (S : Spec) : Event τ → Spec
  | .modify _ b d => { S with volatile := update S.volatile b d }
  | .commitPoint => { S with durable := S.volatile }
  | .crash _ => { S with volatile := S.durable }
  | _ => S

/-- The abstract array after a history, for a machine first started with disk `d₀`. -/
def spec (d₀ : ℕ → Blk) : List (Event τ) → Spec
  | [] => ⟨d₀, d₀⟩
  | e :: h => (spec d₀ h).step e

/-- The contents of the home blocks after all groups committed so far. -/
def durable (d₀ : ℕ → Blk) (h : List (Event τ)) : ℕ → Blk := (spec d₀ h).durable

/-- The number of blocks the commit in progress has unpinned. -/
def unpinned : List (Event τ) → ℕ
  | [] => 0
  | .unpin _ :: h => unpinned h + 1
  | .commitPoint :: _ => 0
  | .installed _ :: _ => 0
  | .crash _ :: _ => 0
  | _ :: h => unpinned h

/-- The number of commits since the machine was last started. -/
def commits : List (Event τ) → ℕ
  | [] => 0
  | .installed _ :: h => commits h + 1
  | .crash _ :: _ => 0
  | _ :: h => commits h

/-- No operation has ended since the last commit. -/
def Settled : List (Event τ) → Prop
  | [] => True
  | .installed _ :: _ => True
  | .crash _ :: _ => True
  | .endRet _ :: _ => False
  | _ :: h => Settled h

/-- Some commit is complete since the machine was last started. -/
def HasCommit (h : List (Event τ)) : Prop := ∃ disk, .installed disk ∈ h

/-- These events are part of one run of the machine, and `t` neither enters nor leaves `sys_sync`
during them. -/
def NoSync (t : τ) (h : List (Event τ)) : Prop :=
  .syncAcq t ∉ h ∧ .syncRet t ∉ h ∧ ∀ disk, .crash disk ∉ h

/-! ## Parts of a history -/

variable {B : List (Event τ)} {lh : LogHeader} {b k : ℕ}

/-- The entry of a `sys_sync` in a history that has not left it is unique. -/
theorem syncAcq_unique {t : τ} {B' C C' : List (Event τ)}
    (h : B ++ .syncAcq t :: C = B' ++ .syncAcq t :: C') (hB : .syncAcq t ∉ B)
    (hB' : .syncAcq t ∉ B') : B = B' ∧ C = C' := by
  induction B generalizing B' with
  | nil =>
    cases B' with
    | nil => exact ⟨rfl, (List.cons.inj h).2⟩
    | cons e B' =>
      obtain ⟨rfl, -⟩ := List.cons.inj h
      exact absurd (.head _) hB'
  | cons e B ih =>
    cases B' with
    | nil =>
      obtain ⟨rfl, -⟩ := List.cons.inj h
      exact absurd (.head _) hB
    | cons e' B' =>
      obtain ⟨rfl, htail⟩ := List.cons.inj h
      obtain ⟨rfl, rfl⟩ := ih htail (fun hc => hB (.tail _ hc))
        fun hc => hB' (.tail _ hc)
      exact ⟨rfl, rfl⟩

/-- Events without a complete commit do not change the number of commits. -/
theorem commits_append {C : List (Event τ)} (hB : ¬ HasCommit B) (hc : ∀ disk, .crash disk ∉ B) :
    commits (B ++ C) = commits C := by
  induction B with
  | nil => rfl
  | cons e B ih =>
    have hB' : ¬ HasCommit B := fun ⟨d, hd⟩ => hB ⟨d, .tail _ hd⟩
    have hc' : ∀ disk, .crash disk ∉ B := fun d hd => hc d (.tail _ hd)
    cases e with
    | installed d => exact absurd ⟨d, (.head _)⟩ hB
    | crash d => exact absurd (.head _) (hc d)
    | _ => exact ih hB' hc'

/-! ## The header block -/

/-- A header block that describes `lh`. -/
def Matches (d : Blk) (lh : LogHeader) : Prop :=
  headN d = lh.n ∧ ∀ j < lh.n, headBlock d j = lh.block j

theorem headN_putHead (d : Blk) (hn : lh.n < 2 ^ 31) : headN (putHead lh d k) = lh.n := by
  have key : Bytes.getLE (putHead lh d k) 0 4 = lh.n := by
    induction k with
    | zero =>
      rw [putHead, Bytes.getLE_putLE_self _ (by decide), Nat.mod_eq_of_lt (by omega)]
    | succ k ih => rw [putHead, Bytes.getLE_putLE_of_disjoint _ (.inl (by omega)), ih]
  rw [headN, key, if_pos hn]

theorem headBlock_putHead {j : ℕ} (d : Blk) (hk : k ≤ logBlocks) (hj : j < k)
    (hb : lh.block j < 2 ^ 32) : headBlock (putHead lh d k) j = lh.block j := by
  have hlog := logBlocks_eq
  have hsize := bsize_eq
  induction k with
  | zero => omega
  | succ k ih =>
    rw [headBlock, putHead]
    rcases Nat.lt_succ_iff_lt_or_eq.mp hj with h | rfl
    · rw [Bytes.getLE_putLE_of_disjoint _ (.inl (by omega)), ← headBlock, ih (by omega) h]
    · rw [Bytes.getLE_putLE_self _ (by omega), Nat.mod_eq_of_lt (by omega)]

/-- `write_head` makes a header block that describes `log.lh`. -/
theorem Matches.putHead (d : Blk) (hn : lh.n ≤ logBlocks) (hb : ∀ j < lh.n, lh.block j < 2 ^ 32) :
    Matches (putHead lh d lh.n) lh :=
  ⟨headN_putHead d (by have := logBlocks_eq; omega),
    fun j hj => headBlock_putHead d hn hj (hb j hj)⟩

/-! ## Disks that recovery completes -/

/-- Copying the blocks the header on `disk` names to their homes gives the home blocks the
contents `c`. -/
structure Recoverable (start : ℕ) (disk c : ℕ → Blk) : Prop where
  n_le : headN (disk start) ≤ logBlocks
  home : ∀ j < headN (disk start), Home start (headBlock (disk start) j)
  inj : ∀ j < headN (disk start), ∀ k < headN (disk start),
    headBlock (disk start) j = headBlock (disk start) k → j = k
  logged : ∀ j < headN (disk start), disk (start + j + 1) = c (headBlock (disk start) j)
  other : ∀ b, Home start b → (∀ j < headN (disk start), headBlock (disk start) j ≠ b) →
    disk b = c b

variable {start : ℕ} {disk c : ℕ → Blk}

theorem Home.ne_start (h : Home start b) : b ≠ start := by
  rcases h with h | h <;> omega

theorem Home.ne_log {j : ℕ} (h : Home start b) (hj : j < logBlocks) : b ≠ start + j + 1 := by
  rcases h with h | h <;> omega

/-- A disk with an empty header is its own recovery. -/
theorem Recoverable.of_empty (h0 : headN (disk start) = 0) (h : ∀ b, Home start b → disk b = c b) :
    Recoverable start disk c where
  n_le := by omega
  home j hj := by omega
  inj j hj := by omega
  logged j hj := by omega
  other b hb _ := h b hb

theorem Recoverable.eq_of_empty (h : Recoverable start disk c) (h0 : headN (disk start) = 0)
    (hb : Home start b) : disk b = c b :=
  h.other b hb fun j hj => by omega

/-- While the header is empty, log blocks may be written freely. -/
theorem Recoverable.write_log (h : Recoverable start disk c) (h0 : headN (disk start) = 0)
    (hk : k < logBlocks) (d : Blk) : Recoverable start (update disk (start + k + 1) d) c := by
  have hs : update disk (start + k + 1) d start = disk start :=
    update_of_ne (by omega) _ _
  refine .of_empty (by rw [hs, h0]) fun b hb => ?_
  rw [update_of_ne (hb.ne_log hk), h.eq_of_empty h0 hb]

/-- Writing a header that names log blocks already on the disk replaces the durable contents by
`c`, all at once. -/
theorem Recoverable.commitPoint {d : Blk} (hm : Matches d lh) (hn : lh.n ≤ logBlocks)
    (hhome : ∀ j < lh.n, Home start (lh.block j))
    (hinj : ∀ j < lh.n, ∀ k < lh.n, lh.block j = lh.block k → j = k)
    (hlog : ∀ j < lh.n, disk (start + j + 1) = c (lh.block j))
    (hother : ∀ b, Home start b → (∀ j < lh.n, lh.block j ≠ b) → disk b = c b) :
    Recoverable start (update disk start d) c where
  n_le := by rw [update_self, hm.1]; exact hn
  home j hj := by
    rw [update_self, hm.1] at hj
    rw [update_self, hm.2 j hj]
    exact hhome j hj
  inj j hj k hk heq := by
    rw [update_self, hm.1] at hj hk
    rw [update_self, hm.2 j hj, hm.2 k hk] at heq
    exact hinj j hj k hk heq
  logged j hj := by
    rw [update_self, hm.1] at hj
    rw [update_self, hm.2 j hj, update_of_ne (by omega), hlog j hj]
  other b hb hne := by
    rw [update_self, hm.1] at hne
    rw [update_of_ne hb.ne_start]
    exact hother b hb fun j hj => by rw [← hm.2 j hj]; exact hne j hj

/-- Writing the durable contents of a home block home changes nothing. -/
theorem Recoverable.install (h : Recoverable start disk c) (hb : Home start b) :
    Recoverable start (update disk b (c b)) c := by
  have hs : update disk b (c b) start = disk start :=
    update_of_ne hb.ne_start.symm _ _
  refine ⟨?_, ?_, ?_, fun j hj => ?_, fun b' hb' hne => ?_⟩
  · rw [hs]; exact h.n_le
  · rw [hs]; exact h.home
  · rw [hs]; exact h.inj
  · rw [hs] at hj ⊢
    rw [update_of_ne (hb.ne_log (hj.trans_le h.n_le)).symm, h.logged j hj]
  · by_cases hbb : b' = b
    · subst hbb; exact update_self ..
    · rw [hs] at hne
      rw [update_of_ne hbb, h.other b' hb' hne]

/-- Once every home block is as it should be, the header may be cleared. -/
theorem Recoverable.clear {d : Blk} (hd : headN d = 0) (h : ∀ b, Home start b → disk b = c b) :
    Recoverable start (update disk start d) c := by
  refine .of_empty (by rw [update_self, hd]) fun b hb => ?_
  rw [update_of_ne hb.ne_start, h b hb]

/-! ## What the history promises -/

/-- Every `bread` returned the current contents of its block; every complete commit left the
current contents of all home blocks on the disk, and durable; every recovery left the durable
contents of all home blocks on the disk; and a `sys_sync` that returned had seen a commit since it
started, unless no operation was waiting for one. -/
def HistOk (start : ℕ) (d₀ : ℕ → Blk) : List (Event τ) → Prop
  | [] => True
  | .read _ b d :: h => HistOk start d₀ h ∧ d = current d₀ h b
  | .installed disk :: h => HistOk start d₀ h ∧
      ∀ b, Home start b →
        disk b = current d₀ h b ∧ durable d₀ h b = disk b ∧ (spec d₀ h).volatile b = disk b
  | .recovered disk :: h => HistOk start d₀ h ∧ ∀ b, Home start b → disk b = durable d₀ h b
  | .syncRet t :: h => HistOk start d₀ h ∧
      ∀ B C, h = B ++ .syncAcq t :: C → NoSync t B →
        Settled C ∨ HasCommit B
  | _ :: h => HistOk start d₀ h

theorem HistOk.tail {d₀ : ℕ → Blk} {A : List (Event τ)} (h : HistOk start d₀ (A ++ B)) :
    HistOk start d₀ B := by
  induction A with
  | nil => exact h
  | cons e A ih =>
    refine ih ?_
    cases e <;> first | exact h | exact h.1

end Log

end TrinityXv6
