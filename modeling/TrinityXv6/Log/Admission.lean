import TrinityXv6.Log.Sound

/-!
# Room in the log and in the buffer cache

`begin_op` admits an operation only while the header has room for `MAXOPBLOCKS` blocks of every
open bracket. That reserves enough header entries for all the *distinct* blocks the brackets may
log. Two corners are left, and both are reached when three brackets log ten blocks each.

* `log_write` tests for a full header before it looks whether the block is listed already, so a
  repeated write of a listed block panics once the header is full.
* A group of `NBUF` blocks pins every buffer, and the first `bread` of its commit then finds none.

## Main results

* `log_admission` — `log_write` panics exactly in the first corner
* `commit_finds_buffers` — `commit` panics exactly in the second
* `panics_left` — there are no other panics
-/

namespace TrinityXv6

namespace Log

open Threads

variable {τ : Type} [DecidableEq τ] {start : ℕ} {d₀ : ℕ → Blk} {R : Rules} {t₀ t : τ}
variable {s : State τ} {G : Ghost τ}

/-! ## The header -/

/-- **Admission reserves header entries.** If every bracket logs at most `MAXOPBLOCKS` distinct
blocks, then no interleaving writes past the end of `log.lh.block`; and `log_write` panics when
the header is full and lists the block already, and at no other time. -/
theorem log_admission (hlim : R.limit) (h0 : headN (d₀ start) = 0)
    {cfg : Config τ Chan Halt (State τ)}
    (h : Reachable (system start R) (boot start R d₀ t₀) cfg) (t : τ) :
    ¬ HaltsWith cfg t .outOfBounds ∧
    (∀ b, HaltsWith cfg t (.tooBig b) →
      cfg.shared.log.lh.n = logBlocks ∧ b ∈ listed cfg.shared.log.lh) ∧
    ∀ i ch, cfg.threads t = ⟨logWrite i, .running, ch⟩ →
      ((∃ e, HaltsWith cfg t e) ↔ cfg.shared.log.lh.n = logBlocks ∧
        (cfg.shared.bc.buf i).blockno ∈ listed cfg.shared.log.lh) := by
  have hmay : ∀ {e}, HaltsWith cfg t e → MayHalt R t cfg.shared e := mayHalt_of_reachable h0 h
  refine ⟨fun he => hmay he, fun b he => hmay he hlim, fun i ch hi => ⟨?_, ?_⟩⟩
  · rintro ⟨e, he⟩
    have hm := hmay he
    have hf : logWriteLocked i t cfg.shared = .halt e := (haltsWith_iff hi).mp he
    simp only [logWriteLocked] at hf
    split_ifs at hf <;> obtain rfl := Outcome.halt.inj hf
    · exact hm hlim
    · exact hm.elim
    · exact hm.elim
  · rintro ⟨hn, -⟩
    refine ⟨.tooBig (cfg.shared.bc.buf i).blockno, (haltsWith_iff hi).mpr ?_⟩
    simp only [logWriteLocked]
    exact if_pos hn.ge

/-- The calls by which process `t` logs ten blocks, `100 + 10 * t` and the nine after it. The
buffer each `bread` returns is the next one that is neither in use nor pinned. -/
def logTen (t : Fin 3) : List (Fin 3 × Call) :=
  (List.range 10).flatMap fun k =>
    let i : BufId := Fin.ofNat nbuf (10 * t + k + 1)
    [(t, .bread (100 + 10 * t + k)), (t, .logWrite i), (t, .brelse i)]

/-- Three brackets, each of which logs `MAXOPBLOCKS` distinct blocks. -/
def threeBrackets : List (Fin 3 × Call) :=
  [(0, .beginOp), (1, .beginOp), (2, .beginOp)] ++ logTen 0 ++ logTen 1 ++ logTen 2

/-- The bound on the header at a state in which the header is full. -/
theorem log_admission_three_brackets :
    ∃ cfg, Reachable (system 2 ⟨True, True⟩) (boot 2 ⟨True, True⟩ (fun _ _ => 0) (0 : Fin 3)) cfg ∧
      cfg.shared.log.lh.n = logBlocks ∧ ∀ t, ¬ HaltsWith cfg t .outOfBounds := by
  have hrun : ((system 2 ⟨True, True⟩).serialFrom (.fresh (fun _ _ => 0) []) 0
      threeBrackets).any (fun s => s.log.lh.n = logBlocks) = true := by
    decide +kernel
  obtain ⟨s, hs, hn⟩ := (Option.any_eq_true _ _).mp hrun
  obtain ⟨th, hr, -⟩ := reachable_serialFrom hs
  exact ⟨_, hr, of_decide_eq_true hn, fun t => (log_admission trivial (by decide) hr t).1⟩

/-- Process 0 logs one of its blocks again when the header is full, and panics. -/
theorem log_admission_full_header :
    ∃ cfg, Reachable (system 2 ⟨True, True⟩) (boot 2 ⟨True, True⟩ (fun _ _ => 0) (0 : Fin 3)) cfg ∧
      HaltsWith cfg 0 (.tooBig 100) := by
  have hrun : ((system 2 ⟨True, True⟩).partway (.fresh (fun _ _ => 0) []) 0
      (threeBrackets ++ [(0, Call.bread 100)]) 0 (.logWrite 1) 0).any
        (fun r => r.1.haltsAt 0 r.2 = some (.tooBig 100)) = true := by
    decide +kernel
  obtain ⟨s, th, hr, hm, hhalt⟩ := exists_of_partway hrun
  exact ⟨_, hr, haltsWith_of_haltsAt hm hhalt⟩

/-! ## The buffers -/

/-- When the group of a commit fills the buffer cache, every buffer is pinned for a home block. -/
theorem Inv.all_pinned (h : Inv start d₀ R s G) (hn : s.log.lh.n = nbuf) (hs : G.skip = 0)
    (i : BufId) : (s.bc.buf i).dev = rootDev ∧ (s.bc.buf i).blockno ∈ listed s.log.lh := by
  have hpin : pinned s G = listed s.log.lh := by rw [pinned, hs, List.drop_zero]
  have hbuf : ∀ b ∈ listed s.log.lh, ∃ i, Cached s b i := fun b hb => by
    obtain ⟨i, hi, -⟩ := h.data.pinnedBuf b (hpin ▸ hb)
    exact ⟨i, hi⟩
  choose! f hf using hbuf
  -- distinct blocks have distinct buffers, and there are as many of one as of the other
  have hinj : Set.InjOn f (listed s.log.lh).toFinset := by
    intro b hb c hc hbc
    have hb := hf b (List.mem_toFinset.mp hb)
    have hc := hf c (List.mem_toFinset.mp hc)
    rw [← hb.2, ← hc.2, hbc]
  have hcard : (listed s.log.lh).toFinset.card = Fintype.card BufId := by
    rw [List.toFinset_card_of_nodup h.log.nodup, Fintype.card_fin, ← hn, listed, List.length_map,
      List.length_range]
  have hsurj : (listed s.log.lh).toFinset.image f = Finset.univ := by
    rw [← Finset.card_eq_iff_eq_univ, Finset.card_image_of_injOn hinj, hcard]
  obtain ⟨b, hb, rfl⟩ := Finset.mem_image.mp (hsurj ▸ Finset.mem_univ i)
  have hb := List.mem_toFinset.mp hb
  refine ⟨(hf b hb).1, ?_⟩
  rw [(hf b hb).2]
  exact hb

/-- In that case a `bread` outside the home blocks panics. -/
theorem Inv.bgetLocked_halt (h : Inv start d₀ R s G) (hn : s.log.lh.n = nbuf) (hs : G.skip = 0)
    {b : ℕ} (hb : ¬ Home start b) (t : τ) : bgetLocked rootDev b t s = .halt .noBuffers := by
  have hall := h.all_pinned hn hs
  rcases bgetLocked_cases h.cache rootDev b t with ⟨i, -, hi, -⟩ | ⟨-, i, hi, -⟩ | ⟨-, -, hhalt⟩
  · exact absurd (h.log.home _ (hall i).2).1 (hi ▸ hb)
  · have hcount := h.cache.refcnt i
    have hpin : (s.bc.buf i).blockno ∈ pinned s G := by
      rw [pinned, hs, List.drop_zero]
      exact (hall i).2
    rw [hi, pins, if_pos ⟨(hall i).1, hpin⟩] at hcount
    omega
  · exact hhalt

/-- **A commit finds its buffers, unless its group fills the cache.** Suppose the clients release
their buffers before `end_op`, and none but the committing one uses the cache. Then a `bread` of
the commit panics only if the group has `NBUF` blocks; and if it has, the first `bread` of
`write_log` does panic. -/
theorem commit_finds_buffers (hrel : R.release) (h0 : headN (d₀ start) = 0)
    {cfg : Config τ Chan Halt (State τ)}
    (h : Reachable (system start R) (boot start R d₀ t₀) cfg)
    (hc : cfg.shared.committer = some t) (hall : ∀ x ∈ cfg.shared.refs, x.1 = t) :
    (HaltsWith cfg t .noBuffers → cfg.shared.log.lh.n = nbuf) ∧
    (cfg.shared.log.lh.n = nbuf → unpinned cfg.shared.hist = 0 →
      bgetLocked rootDev (start + 1) t cfg.shared = .halt .noBuffers) := by
  refine ⟨fun he => mayHalt_of_reachable h0 h he hrel hc hall, fun hn hu => ?_⟩
  obtain ⟨G, hI⟩ := inv_of_reachable h0 h
  obtain ⟨hup, a, ha, rfl⟩ := (hI.log.committer _).mp hc
  refine hI.bgetLocked_halt hn ?_ (by simp [Home]) _
  -- a commit that has unpinned nothing skips nothing
  have hrec := hI.log.up a ha
  rw [hI.disk.unpinned, Ghost.unpins_eq ha, Active.unpins] at hu
  rw [Ghost.skip_eq ha, Active.skip]
  cases hst : a.stage <;> simp_all [Stage.recovering]

/-- The commit of a single block, about to read its first log block. -/
theorem commit_finds_buffers_one_block :
    ∃ cfg, Reachable (system 2 ⟨True, True⟩) (boot 2 ⟨True, True⟩ (fun _ _ => 0) (0 : Fin 3)) cfg ∧
      cfg.shared.committer = some 0 ∧ cfg.shared.refs = [] ∧ ¬ HaltsWith cfg 0 .noBuffers := by
  have hrun : ((system (τ := Fin 3) 2 ⟨True, True⟩).partway (.fresh (fun _ _ => 0) []) 0
      [(0, .beginOp), (0, Call.bread 100), (0, .logWrite 1), (0, .brelse 1)] 0 .endOp 3).any
        (fun r => r.2.committer = some 0 ∧ r.2.refs = [] ∧ r.2.log.lh.n = 1) = true := by
    decide +kernel
  obtain ⟨s, th, hr, -, hcom, hrefs, hn⟩ := exists_of_partway hrun
  have hall : ∀ x ∈ s.refs, x.1 = 0 := by simp [show s.refs = [] from hrefs]
  refine ⟨_, hr, hcom, hrefs, fun hhalt => ?_⟩
  have hfull := (commit_finds_buffers trivial (by decide) hr hcom hall).1 hhalt
  exact absurd (hn.symm.trans hfull) (by decide)

/-- The commit of three brackets of ten blocks each, about to read its first log block. -/
theorem exists_full_cache :
    ∃ cfg, Reachable (system 2 ⟨True, True⟩) (boot 2 ⟨True, True⟩ (fun _ _ => 0) (0 : Fin 3)) cfg ∧
      cfg.shared.committer = some 2 ∧ cfg.shared.refs = [] ∧ commits cfg.shared.hist = 0 ∧
      HaltsWith cfg 2 .noBuffers := by
  have hrun : ((system 2 ⟨True, True⟩).partway (.fresh (fun _ _ => 0) []) 0
      (threeBrackets ++ [(0, Call.endOp), (1, Call.endOp)]) 2 .endOp 3).any
        (fun r => r.2.committer = some 2 ∧ r.2.refs = [] ∧ commits r.2.hist = 0 ∧
          r.1.haltsAt 2 r.2 = some .noBuffers) = true := by
    decide +kernel
  obtain ⟨s, th, hr, hm, hcom, hrefs, hnone, hhalt⟩ := exists_of_partway hrun
  exact ⟨_, hr, hcom, hrefs, hnone, haltsWith_of_haltsAt hm hhalt⟩

/-- Three brackets of ten blocks each end, and the commit panics for want of a buffer. -/
theorem commit_finds_buffers_full_cache :
    ∃ cfg, Reachable (system 2 ⟨True, True⟩) (boot 2 ⟨True, True⟩ (fun _ _ => 0) (0 : Fin 3)) cfg ∧
      cfg.shared.committer = some 2 ∧ cfg.shared.refs = [] ∧ HaltsWith cfg 2 .noBuffers := by
  obtain ⟨cfg, hr, hcom, hrefs, -, hhalt⟩ := exists_full_cache
  exact ⟨cfg, hr, hcom, hrefs, hhalt⟩

/-- **The other panics.** Whatever number of blocks the brackets log, and across crashes, no
interleaving of clients that keep to `Call.allowed` makes `bwrite`, `brelse` or `log_write` find a
lock or an operation missing or `end_op` meet a commit, writes past `log.lh.block`, or loses `bget`
in the list of buffers. The counter of commits overflows only after `2 ^ 31 - 1` of them. -/
theorem panics_left (h0 : headN (d₀ start) = 0) {cfg : Config τ Chan Halt (State τ)}
    (h : Reachable (system start R) (boot start R d₀ t₀) cfg) :
    {e | ∃ t, HaltsWith cfg t e} ⊆ insert .noBuffers (Set.range .tooBig) ∪
      {e | e = .overflow ∧ 2 ^ 31 ≤ commits cfg.shared.hist + 1} := by
  rintro e ⟨t, he⟩
  have hm := mayHalt_of_reachable h0 h he
  cases e with
  | noBuffers => exact .inl (.inl rfl)
  | tooBig b => exact .inl (.inr ⟨b, rfl⟩)
  | overflow => exact .inr ⟨rfl, hm⟩
  | _ => exact hm.elim

/-- With every buffer pinned the committing process panics for want of one, and nobody panics for
any reason but the two. -/
theorem panics_left_full_cache :
    ∃ cfg, Reachable (system 2 ⟨True, True⟩) (boot 2 ⟨True, True⟩ (fun _ _ => 0) (0 : Fin 3)) cfg ∧
      HaltsWith cfg 2 .noBuffers ∧
      ∀ t e, HaltsWith cfg t e → e = .noBuffers ∨ ∃ b, .tooBig b = e := by
  obtain ⟨cfg, hr, -, -, hnone, hhalt⟩ := exists_full_cache
  refine ⟨cfg, hr, hhalt, fun t e he => ?_⟩
  rcases panics_left (by decide) hr ⟨t, he⟩ with hleft | ⟨-, hmany⟩
  · exact hleft
  · rw [hnone] at hmany
    exact absurd hmany (by decide)

end Log

end TrinityXv6
