import TrinityXv6.Log.Sound

/-!
# The buffer cache and the log's bookkeeping

Two readings of the invariant. To its clients the buffer cache is a plain array of blocks, the one
`current` computes from the history. And the log's counters, its list of blocks and the reference
counts of the buffers agree, in every state of every interleaving.

A listed block is pinned from the `log_write` that lists it to the `bunpin` of `install_trans`,
while it stays listed until the whole group is installed. In between, the blocks that the commit in
progress has unpinned are the first `unpinned hist` ones of the list.

## Main results

* `cache_transparency` — the cache is an array of blocks
* `log_bookkeeping` — the list, the pins and the counters
-/

namespace TrinityXv6

namespace Log

open Threads

variable {τ : Type} [DecidableEq τ] {start : ℕ} {d₀ : ℕ → Blk} {R : Rules} {t₀ : τ}
variable {s : State τ} {G : Ghost τ}

/-- Once the machine is up, the pinned blocks are the listed ones but those already unpinned. -/
theorem Inv.pinned_eq (h : Inv start d₀ R s G) (hup : s.up = true) :
    pinned s G = (listed s.log.lh).drop (unpinned s.hist) := by
  rw [pinned, h.disk.unpinned]
  cases ha : G.active with
  | none => simp [Ghost.skip, Ghost.unpins, ha]
  | some a =>
    have hrec := h.log.up a ha
    have hstage := h.disk.stage a ha
    rw [Ghost.skip_eq ha, Ghost.unpins_eq ha]
    cases hst : a.stage with
    | wlog k => simp [Active.skip, Active.unpins, hst]
    | inst k => simp [Active.skip, Active.unpins, hst]
    | instW k => simp [Active.skip, Active.unpins, hst]
    | rhead => simp [hst, Stage.recovering, hup] at hrec
    | rinst k => simp [hst, Stage.recovering, hup] at hrec
    | clear r | fin r =>
      -- nothing is listed any more
      rw [StageOk, hst] at hstage
      rw [listed, hstage.1, List.range_zero, List.map_nil, List.drop_nil, List.drop_nil]

/-! ## The cache -/

/-- **Buffer-cache transparency.** In every reachable state, no two buffers carry the same block;
the list through `bcache.head` contains each buffer once, with `prev` and `next` inverse to each
other; every `bread` so far returned what the block contained at that time; and a block that is
logged and not yet installed is in a buffer that is valid, up to date and cannot be recycled. -/
theorem cache_transparency (h0 : headN (d₀ start) = 0) {cfg : Config τ Chan Halt (State τ)}
    (h : Reachable (system start R) (boot start R d₀ t₀) cfg) :
    (∀ i j, (cfg.shared.bc.buf i).dev = rootDev → (cfg.shared.bc.buf j).dev = rootDev →
      (cfg.shared.bc.buf i).blockno = (cfg.shared.bc.buf j).blockno → i = j) ∧
    (∃ l, cfg.shared.bc.links.Through l ∧ l.Nodup ∧ ∀ i, i ∈ l) ∧
    (∀ x, cfg.shared.bc.links.prev (cfg.shared.bc.links.next x) = x ∧
      cfg.shared.bc.links.next (cfg.shared.bc.links.prev x) = x) ∧
    (∀ A B t b d, cfg.shared.hist = A ++ .read t b d :: B → d = current d₀ B b) ∧
    (cfg.shared.up = true →
      ∀ b ∈ (listed cfg.shared.log.lh).drop (unpinned cfg.shared.hist),
        ∃ i, Cached cfg.shared b i ∧ (cfg.shared.bc.buf i).valid = true ∧
          (cfg.shared.bc.buf i).data = current d₀ cfg.shared.hist b ∧
          0 < (cfg.shared.bc.buf i).refcnt) := by
  obtain ⟨G, hI⟩ := inv_of_reachable h0 h
  obtain ⟨l, hl, hnd, hall⟩ := hI.cache.ring
  refine ⟨fun i j hi hj hij => ?_, ⟨l, hl, hnd, hall⟩,
    fun x => ⟨hl.prev_next hall x, hl.next_prev hall x⟩, fun A B t b d hh => ?_,
    fun hup b hb => ?_⟩
  · exact hI.cache.uniq _ i j ⟨hi, rfl⟩ ⟨hj, hij.symm⟩
  · have hok := hI.hist.ok
    rw [hh] at hok
    exact hok.tail.2
  · rw [← hI.pinned_eq hup] at hb
    obtain ⟨i, hi, hv⟩ := hI.data.pinnedBuf b hb
    refine ⟨i, hi, hv, hI.data.coherent b i hi hv, ?_⟩
    rw [hI.cache.refcnt i, pins, if_pos ⟨hi.1, hi.2 ▸ hb⟩]
    exact Nat.succ_pos _

/-- After a block is logged, enough others are read to recycle every buffer that is not pinned; then
the block is read back. -/
def readBack : List (Unit × Call) :=
  oneBlock ++ ((List.range 28).flatMap fun k =>
    [((), .bread (100 + k)), ((), .brelse (Fin.ofNat nbuf (k + 2)))]) ++
    [((), .bread 128), ((), .brelse 0), ((), .bread 129), ((), .brelse 2), ((), .bread 50)]

/-- The cache returns what was logged, which is not on the disk yet. -/
theorem cache_transparency_read_back :
    ∃ cfg, Reachable (system 2 ⟨True, True⟩) (boot 2 ⟨True, True⟩ (fun _ _ => 0) ()) cfg ∧
      cfg.shared.disk 50 0 = 0 ∧
      (∃ d B, cfg.shared.hist = .read () 50 d :: B ∧ d = current (fun _ _ => 0) B 50 ∧ d 0 = 1) ∧
      ∃ i, Cached cfg.shared 50 i ∧ 0 < (cfg.shared.bc.buf i).refcnt := by
  have hrun : ((system 2 ⟨True, True⟩).serialFrom (.fresh (fun _ _ => 0) []) ()
      readBack).any (fun s => s.up = true ∧ s.disk 50 0 = 0 ∧
        50 ∈ (listed s.log.lh).drop (unpinned s.hist) ∧ (match s.hist with
          | .read () 50 d :: _ => d 0 == 1
          | _ => false) = true) = true := by
    decide +kernel
  obtain ⟨s, hs, hp⟩ := (Option.any_eq_true _ _).mp hrun
  obtain ⟨hup, hdisk, hlisted, hread⟩ := of_decide_eq_true hp
  obtain ⟨th, hr, -⟩ := reachable_serialFrom hs
  obtain ⟨-, -, -, hreads, hpinned⟩ := cache_transparency (by decide) hr
  obtain ⟨i, hi, -, -, href⟩ := hpinned hup 50 hlisted
  refine ⟨_, hr, hdisk, ?_, i, hi, href⟩
  split at hread
  · next d B hh => exact ⟨d, B, hh, hreads [] B () 50 d hh, eq_of_beq hread⟩
  · cases hread

/-! ## The log -/

/-- **Bookkeeping of the log.** In every reachable state of a machine that is up, the listed
blocks are distinct; each of them but the first `unpinned hist` has a buffer with one pin, and
there are no other pins; a commit has unpinned nothing outside `install_trans`; nothing is
outstanding during a commit; and when nothing is outstanding and no commit is in progress, the
list is empty and no buffer is pinned. -/
theorem log_bookkeeping (h0 : headN (d₀ start) = 0) {cfg : Config τ Chan Halt (State τ)}
    (h : Reachable (system start R) (boot start R d₀ t₀) cfg) (hup : cfg.shared.up = true) :
    (listed cfg.shared.log.lh).Nodup ∧
    (∀ b ∈ (listed cfg.shared.log.lh).drop (unpinned cfg.shared.hist),
      ∃ i, Cached cfg.shared b i) ∧
    (∀ i, (cfg.shared.bc.buf i).refcnt = holders cfg.shared i +
      if (cfg.shared.bc.buf i).dev = rootDev ∧ (cfg.shared.bc.buf i).blockno ∈
        (listed cfg.shared.log.lh).drop (unpinned cfg.shared.hist) then 1 else 0) ∧
    (cfg.shared.log.committing = false → unpinned cfg.shared.hist = 0) ∧
    (cfg.shared.log.committing = true → cfg.shared.log.outstanding = 0) ∧
    (∀ t, ¬ HaltsWith cfg t .logCommitting) ∧
    0 ≤ cfg.shared.log.outstanding ∧
    (cfg.shared.log.outstanding = 0 → cfg.shared.log.committing = false →
      cfg.shared.log.lh.n = 0 ∧ ∀ i, (cfg.shared.bc.buf i).refcnt = holders cfg.shared i) := by
  obtain ⟨G, hI⟩ := inv_of_reachable h0 h
  have hact : cfg.shared.log.committing = false → G.active = none := fun hc => by
    by_contra hne
    rw [hI.log.committing.mpr ⟨hup, hne⟩] at hc
    cases hc
  have hpins := hI.pinned_eq hup
  refine ⟨hI.log.nodup, fun b hb => ?_, fun i => ?_, fun hc => ?_, fun hc => ?_, fun t he => ?_,
    ?_, fun hout hc => ?_⟩
  · obtain ⟨i, hi, -⟩ := hI.data.pinnedBuf b (hpins ▸ hb)
    exact ⟨i, hi⟩
  · rw [hI.cache.refcnt i, pins, hpins]
  · rw [hI.disk.unpinned, Ghost.unpins, hact hc]
  · rw [hI.log.outstanding, hI.log.quiet (hI.log.committing.mp hc).2]
    rfl
  · exact mayHalt_of_reachable h0 h he
  · rw [hI.log.outstanding]
    exact Int.natCast_nonneg _
  · have hops : cfg.shared.ops = [] := by
      rw [hI.log.outstanding] at hout
      exact List.length_eq_zero_iff.mp (by exact_mod_cast hout)
    have hn := hI.log.idle (hact hc) hops
    refine ⟨hn, fun i => ?_⟩
    rw [hI.cache.refcnt i, pins, hpins, listed, hn]
    simp

/-- In `write_log`, while the committing process holds the buffer of the listed block. -/
theorem log_bookkeeping_in_commit :
    ∃ cfg, Reachable (system 2 ⟨True, True⟩) (boot 2 ⟨True, True⟩ (fun _ _ => 0) ()) cfg ∧
      listed cfg.shared.log.lh = [50] ∧ cfg.shared.log.committing = true ∧
      cfg.shared.log.outstanding = 0 ∧
      (cfg.shared.bc.buf 1).refcnt = holders cfg.shared 1 + 1 ∧ holders cfg.shared 1 = 1 := by
  have hrun : ((system 2 ⟨True, True⟩).partway (.fresh (fun _ _ => 0) []) ()
      oneBlock () .endOp 9).any (fun r => r.2.up = true ∧ listed r.2.log.lh = [50] ∧
        r.2.log.committing = true ∧ Cached r.2 50 1 ∧ holders r.2 1 = 1 ∧
        unpinned r.2.hist = 0) = true := by
    decide +kernel
  obtain ⟨s, th, hr, -, hup, hlist, hcom, hbuf, hhold, hunp⟩ := exists_of_partway hrun
  obtain ⟨-, -, hcount, -, hout, -⟩ := log_bookkeeping (by decide) hr hup
  have hpin : (s.bc.buf 1).blockno ∈ (listed s.log.lh).drop (unpinned s.hist) := by
    rw [hbuf.2, hlist, hunp]
    exact .head _
  exact ⟨_, hr, hlist, hcom, hout hcom, by rw [hcount 1, if_pos ⟨hbuf.1, hpin⟩], hhold⟩

/-- In the commit of a single block, right after its `bunpin`: the block is listed, and its buffer
has no reference but that of the committing process. -/
theorem log_bookkeeping_after_bunpin :
    ∃ cfg, Reachable (system 2 ⟨True, True⟩) (boot 2 ⟨True, True⟩ (fun _ _ => 0) ()) cfg ∧
      cfg.shared.up = true ∧ 50 ∈ listed cfg.shared.log.lh ∧ Cached cfg.shared 50 1 ∧
      (cfg.shared.bc.buf 1).refcnt ≠ holders cfg.shared 1 + 1 := by
  have hrun : ((system 2 ⟨True, True⟩).partway (.fresh (fun _ _ => 0) []) ()
      oneBlock () .endOp 34).any (fun r => r.2.up = true ∧ 50 ∈ listed r.2.log.lh ∧
        Cached r.2 50 1 ∧ (r.2.bc.buf 1).refcnt ≠ holders r.2 1 + 1) = true := by
    decide +kernel
  obtain ⟨s, th, hr, -, hp⟩ := exists_of_partway hrun
  exact ⟨_, hr, hp⟩

end Log

end TrinityXv6
