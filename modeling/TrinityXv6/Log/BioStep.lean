import TrinityXv6.Log.CacheStep

/-!
# The invariant under the actions of `bio.c`

Each part of the invariant looks at few fields of the state, so most actions leave most parts
alone: the `congr` lemmas say so once. What remains is what `bread`, `brelse`, `bwrite` and a
change of a buffer's contents do to the contents of the blocks.
-/

namespace TrinityXv6

namespace Log

open Threads
open Option
open Ghost

variable {τ : Type} {start : ℕ} {d₀ : ℕ → Blk} {R : Rules}
variable {s s' : State τ} {G G' : Ghost τ} {a : Active τ}

theorem StageOk.congr (h : StageOk start d₀ s a) (hlh : s'.log.lh = s.log.lh)
    (hdisk : s'.disk = s.disk) (hcur : current d₀ s'.hist = current d₀ s.hist)
    (hdur : durable d₀ s'.hist = durable d₀ s.hist)
    (hc : ∀ b i, a.mod = some i → Cached s b i → Cached s' b i) : StageOk start d₀ s' a := by
  rcases a with ⟨t, stage, mod, lh⟩
  cases stage <;> simp only [StageOk, hlh, hdisk, hcur, hdur] at h ⊢ hc
  case wlog k =>
    refine ⟨h.1, h.2.1, h.2.2.1, h.2.2.2.1, fun i hi => ?_⟩
    rcases h.2.2.2.2 i hi with ⟨h1, h2, h3⟩ | ⟨h1, h2, h3⟩
    · exact .inl ⟨h1, hc _ i hi h2, h3⟩
    · exact .inr ⟨h1, hc _ i hi h2, h3⟩
  case rinst k =>
    refine ⟨h.1, h.2.1, h.2.2.1, h.2.2.2.1, fun i hi => ?_⟩
    obtain ⟨h1, h2, h3⟩ := h.2.2.2.2 i hi
    exact ⟨h1, hc _ i hi h2, h3⟩
  case clear => exact ⟨h.1, h.2.1, fun i hi => ⟨hc _ i hi (h.2.2 i hi).1, (h.2.2 i hi).2⟩⟩
  all_goals exact h

/-! ## The thread inside a commit or recovery -/

theorem Ghost.active_eq_none_iff (h : G'.active.map Active.key = G.active.map Active.key) :
    G'.active = none ↔ G.active = none := by
  rw [← map_eq_none_iff, h, map_eq_none_iff]

theorem Ghost.exists_active_of_key (h : G'.active.map Active.key = G.active.map Active.key)
    (ha : G'.active = some a) : ∃ a', G.active = some a' ∧ a'.key = a.key := by
  rw [ha, map_some] at h
  exact map_eq_some_iff.mp h.symm

/-! ## Parts that an action leaves alone -/

theorem LogOk.congr (h : LogOk start R s G) (hlog : s'.log = s.log) (hops : s'.ops = s.ops)
    (hup : s'.up = s.up) (hcom : s'.committer = s.committer)
    (hcommits : commits s'.hist = commits s.hist)
    (hact : G'.active.map Active.key = G.active.map Active.key)
    (hop : ∀ t, (G'.th t).op = (G.th t).op) : LogOk start R s' G' where
  n_le := by rw [hlog]; exact h.n_le
  nodup := by rw [hlog]; exact h.nodup
  home := by rw [hlog]; exact h.home
  outstanding := by rw [hlog, hops]; exact h.outstanding
  keys := by rw [hops]; exact h.keys
  op t l := by rw [hop, hops]; exact h.op t l
  logged := by rw [hlog, hops]; exact h.logged
  committing := by rw [hlog, hup, ne_eq, active_eq_none_iff hact]; exact h.committing
  committer t := by
    rw [hcom, h.committer, hup]
    refine and_congr_right fun _ => ⟨fun ⟨a, ha, ht⟩ => ?_, fun ⟨a, ha, ht⟩ => ?_⟩
    · obtain ⟨a', ha', hk⟩ := exists_active_of_key hact.symm ha
      exact ⟨a', ha', (congrArg Prod.fst hk).trans ht⟩
    · obtain ⟨a', ha', hk⟩ := exists_active_of_key hact ha
      exact ⟨a', ha', (congrArg Prod.fst hk).trans ht⟩
  quiet hne := by
    rw [hops]
    exact h.quiet fun hc => hne ((active_eq_none_iff hact).mpr hc)
  up a ha := by
    obtain ⟨a', ha', hk⟩ := exists_active_of_key hact ha
    rw [hup, h.up a' ha', show a'.stage.recovering = a.stage.recovering from congrArg Prod.snd hk]
  down hd := by
    rw [hup] at hd
    exact fun hc => h.down hd ((active_eq_none_iff hact).mp hc)
  idle hn ho := by
    rw [hops] at ho
    rw [hlog]
    exact h.idle ((active_eq_none_iff hact).mp hn) ho
  ncommit := by rw [hlog, hcommits]; exact h.ncommit
  room := by rw [hlog, hops]; exact h.room

theorem DiskOk.congr (h : DiskOk start d₀ s G) (hlh : s'.log.lh = s.log.lh)
    (hdisk : s'.disk = s.disk) (hcur : current d₀ s'.hist = current d₀ s.hist)
    (hdur : durable d₀ s'.hist = durable d₀ s.hist)
    (hunp : Log.unpinned s'.hist = Log.unpinned s.hist) (hact : G'.active = G.active)
    (hc : ∀ a b i, G.active = some a → a.mod = some i → Cached s b i → Cached s' b i) :
    DiskOk start d₀ s' G' where
  recoverable := by rw [hdisk, hdur]; exact h.recoverable
  empty hn := by rw [hdisk]; exact h.empty (hact ▸ hn)
  stage a ha := by
    rw [hact] at ha
    exact (h.stage a ha).congr hlh hdisk hcur hdur (hc a · · ha)
  unpinned := by rw [hunp, h.unpinned, unpins, unpins, hact]

theorem LiveOk.congr (h : LiveOk s G) (hup : s'.up = s.up)
    (hact : G'.active.map Active.key = G.active.map Active.key)
    (hlive : ∀ t, (G'.th t).live = (G.th t).live) (hrefs : ∀ t, (G'.th t).refs = (G.th t).refs) :
    LiveOk s' G' where
  live t ht := by rw [hup]; exact h.live t (hlive t ▸ ht)
  dead hd a ha u hu := by
    obtain ⟨a', ha', hk⟩ := exists_active_of_key hact ha
    rw [hrefs]
    refine h.dead (hup ▸ hd) a' ha' u ?_
    rwa [show a'.thread = a.thread from congrArg Prod.fst hk]

theorem HistInv.congr (h : HistInv start d₀ s G) (hhist : s'.hist = s.hist) (hup : s'.up = s.up)
    (hidle : G'.active = none ∧ s'.ops = [] → G.active = none ∧ s.ops = [])
    (hsync : ∀ t, (G'.th t).sync = (G.th t).sync) : HistInv start d₀ s' G' where
  ok := by rw [hhist]; exact h.ok
  volatile := by rw [hhist, hup]; exact h.volatile
  settled hs := by
    rw [hup] at hs
    rw [hhist]
    exact h.settled (hs.imp_right hidle)
  sync t := by rw [hsync, hhist]; exact h.sync t

variable {i : BufId} {t : τ}

theorem NoSync.append {A B : List (Event τ)} (hA : NoSync t A) (hB : NoSync t B) :
    NoSync t (A ++ B) := by
  refine ⟨?_, ?_, fun disk => ?_⟩ <;> rw [List.mem_append, not_or]
  · exact ⟨hA.1, hB.1⟩
  · exact ⟨hA.2.1, hB.2.1⟩
  · exact ⟨hA.2.2 disk, hB.2.2 disk⟩

/-- What a thread inside `sys_sync` knows is not changed by events of others. -/
theorem HistInv.sync_append (h : HistInv start d₀ s G) {n : ℤ} {C es : List (Event τ)}
    (ht : (G.th t).sync = some (n, C)) (hes : NoSync t es) :
    n = commits C + 1 ∧ ∃ B, es ++ s.hist = B ++ .syncAcq t :: C ∧ NoSync t B := by
  obtain ⟨hn, B, hB, hns⟩ := h.sync t n C ht
  exact ⟨hn, es ++ B, by rw [hB, List.append_assoc], hes.append hns⟩

/-- One more event, which no thread inside `sys_sync` waits for. -/
theorem HistInv.note {e : Event τ} (h : HistInv start d₀ s G) (hhist : s'.hist = e :: s.hist)
    (hok : HistOk start d₀ (e :: s.hist))
    (hvol : ∀ b, Home start b → (spec d₀ (e :: s.hist)).volatile b =
      if s'.up then current d₀ (e :: s.hist) b else durable d₀ (e :: s.hist) b)
    (hset : s'.up = false ∨ (G'.active = none ∧ s'.ops = []) → Settled (e :: s.hist))
    (hns : ∀ t, (G'.th t).sync ≠ none → NoSync t [e])
    (hsync : ∀ t, (G'.th t).sync ≠ none → (G'.th t).sync = (G.th t).sync) :
    HistInv start d₀ s' G' where
  ok := by rw [hhist]; exact hok
  volatile := by rw [hhist]; exact hvol
  settled hs := by rw [hhist]; exact hset hs
  sync t n C ht := by
    have hne : (G'.th t).sync ≠ none := by rw [ht]; exact some_ne_none _
    rw [hsync t hne] at ht
    rw [hhist]
    exact h.sync_append ht (hns t hne)

section

variable (h : DataOk start d₀ s G)
include h

/-- The contents of the buffers and of the disk stay as they are, and no bracket closes while it has
something to log. -/
theorem DataOk.congr (hbc : s'.bc = s.bc) (hdisk : s'.disk = s.disk)
    (hcur : current d₀ s'.hist = current d₀ s.hist) (hdirty : s'.dirty = s.dirty)
    (hpin : pinned s' G' = pinned s G) (hmod : G'.mod = G.mod)
    (hdirt : ∀ u, (G'.th u).dirt = (G.th u).dirt) (hfull : ∀ u, (G'.th u).full = (G.th u).full)
    (hblk : ∀ u, (G'.th u).blk = (G.th u).blk)
    (hop : ∀ u, (G.th u).dirt ≠ [] → (G.th u).op ≠ none → (G'.th u).op ≠ none)
    (hact : ∀ a i, G'.active = some a → a.mod = some i → i ∈ (G.th a.thread).full) :
    DataOk start d₀ s' G' := by
  have hcached : ∀ {b i}, Cached s' b i ↔ Cached s b i := by
    intro b i
    rw [Cached, Cached, hbc]
  refine ⟨fun b i hb hv => ?_, fun b hne => ?_, fun b hb => ?_, fun i hi => ?_, fun u i hi => ?_,
    fun a i ha hi => ?_⟩
  · rw [hbc] at hv ⊢
    rw [hcur]
    exact h.coherent b i (hcached.mp hb) hv
  · rw [hdisk, hcur] at hne
    obtain ⟨i, hb, hw⟩ := h.flushed b hne
    rw [hpin, hdirty, hmod, hbc]
    exact ⟨i, hcached.mpr hb, hw⟩
  · rw [hpin] at hb
    obtain ⟨i, hb', hv⟩ := h.pinnedBuf b hb
    exact ⟨i, hcached.mpr hb', by rw [hbc, hv]⟩
  · obtain ⟨u, hu⟩ := h.dirty i (hdirty ▸ hi)
    exact ⟨u, by rwa [hdirt]⟩
  · rw [hdirt] at hi
    obtain ⟨h1, h2, h3, h4⟩ := h.dirt u i hi
    rw [hdirty, hfull, hblk]
    exact ⟨h1, h2, hop u (List.ne_nil_of_mem hi) h3, h4⟩
  · rw [hfull]
    exact hact a i ha hi

/-- The commit or the recovery moves on, with no buffer in its hands. -/
theorem DataOk.act (hbc : s'.bc = s.bc) (hdisk : s'.disk = s.disk)
    (hcur : current d₀ s'.hist = current d₀ s.hist) (hdirty : s'.dirty = s.dirty)
    (hpin : pinned s' G' = pinned s G) (hth : G'.th = G.th) (hmod : G.mod = none)
    (hmod' : G'.mod = none) : DataOk start d₀ s' G' := by
  refine h.congr hbc hdisk hcur hdirty hpin (hmod'.trans hmod.symm) (fun u => ?_) (fun u => ?_)
    (fun u => ?_) (fun u _ => ?_) fun a i ha hi => ?_
  · rw [hth]
  · rw [hth]
  · rw [hth]
  · rw [hth]
    exact id
  · simp [Ghost.mod, ha, hi] at hmod'

/-! ## What the disk holds -/

/-- A block that no buffer is waiting to write is on the disk as it should be. -/
theorem DataOk.disk_eq {b : ℕ}
    (hno : ∀ i, Cached s b i → ¬ (b ∈ pinned s G ∨ i ∈ s.dirty ∨ G.mod = some i)) :
    s.disk b = current d₀ s.hist b := by
  by_contra hne
  obtain ⟨i, hc, -, hw⟩ := h.flushed b hne
  exact hno i hc hw

/-- Outside brackets nothing is modified and not yet logged. -/
theorem DataOk.dirty_eq_nil (hl : LogOk start R s G) (hops : s.ops = []) : s.dirty = [] := by
  refine List.eq_nil_iff_forall_not_mem.mpr fun i hi => ?_
  obtain ⟨t, ht⟩ := h.dirty i hi
  obtain ⟨-, -, hop, -⟩ := h.dirt t i ht
  obtain ⟨l, hl'⟩ := ne_none_iff_exists'.mp hop
  have := (hl.op t l).mp hl'
  simp [hops] at this

end

variable [DecidableEq τ]

theorem Ghost.view_snd_eq_some {x : Stage × Option BufId × LogHeader} (h : (G.view t).2 = some x) :
    G.active = some ⟨t, x.1, x.2.1, x.2.2⟩ := by
  obtain ⟨th, active⟩ := G
  cases active with
  | none => simp [view] at h
  | some a =>
    by_cases ht : a.thread = t
    · subst ht
      simp only [view, if_true, some.injEq] at h
      subst h
      rfl
    · simp [view, ht] at h

/-! ## Actions on the cache alone -/

/-- A thread that may use the cache. -/
def Ghost.Uses (G : Ghost τ) (t : τ) : Prop :=
  (G.th t).live = true ∨ ∃ a, G.active = some a ∧ a.thread = t

/-- What an action on the cache alone does not change of what a thread knows. -/
structure Mine.Same (m m' : Mine τ) : Prop where
  op : m'.op = m.op
  dirt : m'.dirt = m.dirt
  sync : m'.sync = m.sync
  live : m'.live = m.live

section

variable (h : Inv start d₀ R s G) {w : List Chan} {m : Mine τ}
include h

/-- **Actions on the cache alone.** Buffers that are referenced keep their identity and their
contents, and the buffers that are still to be written stay locked. -/
theorem Inv.of_cache (hs : s' = { s with bc := s'.bc, refs := s'.refs })
    (hc : CacheOk s' (G.set t m)) (hm : (G.th t).Same m)
    (hrefs : G.Uses t ∨ ((G.th t).refs = [] → m.refs = []))
    (hdata : ∀ i, (s'.bc.buf i).valid = true → (s.bc.buf i).valid = true ∧
      (s'.bc.buf i).dev = (s.bc.buf i).dev ∧ (s'.bc.buf i).blockno = (s.bc.buf i).blockno ∧
      (s'.bc.buf i).data = (s.bc.buf i).data)
    (hkeep : ∀ i, 0 < (s.bc.buf i).refcnt → (s'.bc.buf i).dev = (s.bc.buf i).dev ∧
      (s'.bc.buf i).blockno = (s.bc.buf i).blockno ∧ (s'.bc.buf i).valid = (s.bc.buf i).valid)
    (hfull : ∀ i ∈ (G.th t).full,
      i ∈ (G.th t).dirt ∨ (∃ a, G.active = some a ∧ a.mod = some i) → i ∈ m.full) :
    Inv start d₀ R s' (G.set t m) := by
  have hdisk : s'.disk = s.disk := by rw [hs]
  have hlog : s'.log = s.log := by rw [hs]
  have hup : s'.up = s.up := by rw [hs]
  have hops : s'.ops = s.ops := by rw [hs]
  have hdirty : s'.dirty = s.dirty := by rw [hs]
  have hcom : s'.committer = s.committer := by rw [hs]
  have hhist : s'.hist = s.hist := by rw [hs]
  have hpin : pinned s' (G.set t m) = pinned s G := by rw [pinned, pinned, hlog, set_skip]
  have hop : ∀ u, ((G.set t m).th u).op = (G.th u).op := set_proj Mine.op G hm.op
  have hdirt : ∀ u, ((G.set t m).th u).dirt = (G.th u).dirt := set_proj Mine.dirt G hm.dirt
  have hsync : ∀ u, ((G.set t m).th u).sync = (G.th u).sync := set_proj Mine.sync G hm.sync
  have hlive : ∀ u, ((G.set t m).th u).live = (G.th u).live := set_proj Mine.live G hm.live
  have hfull' : ∀ u, ∀ i ∈ (G.th u).full,
      i ∈ (G.th u).dirt ∨ (∃ a, G.active = some a ∧ a.mod = some i) →
      i ∈ ((G.set t m).th u).full := by
    intro u i hi hor
    by_cases hu : u = t
    · subst hu; rw [set_self]; exact hfull i hi hor
    · rwa [set_of_ne _ _ hu]
  -- a locked buffer is referenced, so it keeps its identity
  have hcached : ∀ {b : ℕ} {i : BufId}, 0 < (s.bc.buf i).refcnt → Cached s b i → Cached s' b i :=
    fun hpos hb => (cached_congr (hkeep _ hpos).1 (hkeep _ hpos).2.1).mpr hb
  have hpos : ∀ {u : τ} {i : BufId}, i ∈ (G.th u).full → 0 < (s.bc.buf i).refcnt := fun hi =>
    h.cache.refcnt_pos (h.cache.lock_ref _ _ (h.cache.full _ _ hi).1)
  refine ⟨hc, ⟨fun b i hb hv => ?_, fun b hne => ?_, fun b hb => ?_, fun i hi => ?_,
    fun u i hi => ?_, fun a i ha hi => ?_⟩, ?_, ⟨fun u hu => ?_, fun hd a ha u hu => ?_⟩, ?_, ?_⟩
  · obtain ⟨hv', hdev, hblk, hdat⟩ := hdata i hv
    rw [hdat, hhist]
    exact h.data.coherent b i ((cached_congr hdev hblk).mp hb) hv'
  · rw [hdisk, hhist] at hne
    obtain ⟨i, hb, hv, hw⟩ := h.data.flushed b hne
    have hp : 0 < (s.bc.buf i).refcnt := by
      rcases hw with hw | hw | hw
      · exact h.cache.refcnt_pos_of_pinned hb hw
      · obtain ⟨u, hu⟩ := h.data.dirty i hw
        exact hpos (h.data.dirt u i hu).2.1
      · obtain ⟨a, ha, hmod⟩ := bind_eq_some_iff.mp hw
        exact hpos (h.data.mod a i ha hmod)
    rw [hpin, hdirty]
    exact ⟨i, hcached hp hb, (hkeep i hp).2.2.trans hv, hw⟩
  · rw [hpin] at hb
    obtain ⟨i, hb', hv⟩ := h.data.pinnedBuf b hb
    have hp := h.cache.refcnt_pos_of_pinned hb' hb
    exact ⟨i, hcached hp hb', (hkeep i hp).2.2.trans hv⟩
  · obtain ⟨u, hu⟩ := h.data.dirty i (hdirty ▸ hi)
    exact ⟨u, by rwa [hdirt]⟩
  · rw [hdirt] at hi
    obtain ⟨h1, h2, h3, h4⟩ := h.data.dirt u i hi
    have hf := hfull' u i h2 (.inl hi)
    have hblk : ((G.set t m).th u).blk i = (G.th u).blk i := by
      have hold := h.cache.cached (h.cache.full u i h2).1
      have hnew := hc.cached (hc.full u i hf).1
      rw [← hnew.2, ← hold.2]
      exact (hkeep i (hpos h2)).2.1
    exact ⟨hdirty ▸ h1, hf, by rwa [hop], by rwa [hblk]⟩
  · exact hfull' _ i (h.data.mod a i ha hi) (.inr ⟨a, ha, hi⟩)
  · exact h.log.congr hlog hops hup hcom (by rw [hhist]) rfl hop
  · rw [hup]
    exact h.live.live u (hlive u ▸ hu)
  · rw [hup] at hd
    have hold := h.live.dead hd a ha u hu
    by_cases hut : u = t
    · subst hut
      rw [set_self]
      rcases hrefs with (hl | ⟨a', ha', ht⟩) | hr
      · rw [h.live.live u hl] at hd
        exact absurd hd (by decide)
      · rw [show G.active = some a from ha] at ha'
        exact absurd ((some.inj ha') ▸ ht).symm hu
      · exact hr hold
    · rwa [set_of_ne _ _ hut]
  · refine h.disk.congr (by rw [hlog]) hdisk (by rw [hhist]) (by rw [hhist]) (by rw [hhist]) rfl
      fun a b i ha hi hb => ?_
    exact hcached (hpos (h.data.mod a i ha hi)) hb
  · exact h.hist.congr hhist hup (by rw [hops]; exact id) hsync

/-- Actions on the cache alone that touch neither the identity nor the contents of a buffer. -/
theorem Inv.of_cache_same (hs : s' = { s with bc := s'.bc, refs := s'.refs })
    (hc : CacheOk s' (G.set t m)) (hm : (G.th t).Same m)
    (hrefs : G.Uses t ∨ ((G.th t).refs = [] → m.refs = []))
    (hdev : ∀ i, (s'.bc.buf i).dev = (s.bc.buf i).dev)
    (hblk : ∀ i, (s'.bc.buf i).blockno = (s.bc.buf i).blockno)
    (hvalid : ∀ i, (s'.bc.buf i).valid = (s.bc.buf i).valid)
    (hdata : ∀ i, (s'.bc.buf i).data = (s.bc.buf i).data) (hfull : ∀ i ∈ (G.th t).full,
      i ∈ (G.th t).dirt ∨ (∃ a, G.active = some a ∧ a.mod = some i) → i ∈ m.full) :
    Inv start d₀ R s' (G.set t m) :=
  h.of_cache hs hc hm hrefs
    (fun i hi => ⟨(hvalid i).symm.trans hi, hdev i, hblk i, hdata i⟩)
    (fun i _ => ⟨hdev i, hblk i, hvalid i⟩) hfull

/-- The critical section of `bget`. -/
theorem Inv.bget {b : ℕ} (hu : G.Uses t) (hb : bgetLocked rootDev b t s = .done i s' w) :
    Inv start d₀ R s' (G.set t ((G.th t).addRef i b)) := by
  set s₁ : BufId → State τ := fun j => { s with refs := (t, j) :: s.refs }
  rcases bgetLocked_cases h.cache rootDev b t with
    ⟨j, hd, hbl, he⟩ | ⟨hmiss, j, h0, he⟩ | ⟨-, -, he⟩
  · obtain ⟨rfl, rfl, -⟩ := by simpa using he.symm.trans hb
    exact h.of_cache_same rfl (h.cache.hit t ⟨hd, hbl⟩) ⟨rfl, rfl, rfl, rfl⟩ (.inl hu)
      (setBuf_proj Buf.dev rfl) (setBuf_proj Buf.blockno rfl)
      (setBuf_proj Buf.valid rfl) (setBuf_proj Buf.data rfl)
      fun k hk _ => hk
  · obtain ⟨rfl, rfl, -⟩ := by simpa using he.symm.trans hb
    have hnp : b ∉ pinned s G := fun hp => by
      obtain ⟨k, hk, -⟩ := h.data.pinnedBuf b hp
      exact hmiss k hk
    refine h.of_cache rfl (h.cache.recycle t hmiss h0 hnp) ⟨rfl, rfl, rfl, rfl⟩ (.inl hu)
      (fun k hk => ?_) (fun k hk => ?_) fun k hk _ => hk
    · have hkj : k ≠ j := fun hc => by subst hc; simp at hk
      rw [setBuf_of_ne _ _ _ hkj] at hk ⊢
      exact ⟨hk, rfl, rfl, rfl⟩
    · have hkj : k ≠ j := fun hc => by subst hc; omega
      rw [setBuf_of_ne _ _ _ hkj]
      exact ⟨rfl, rfl, rfl⟩
  · simp [he] at hb

/-- `acquiresleep` -/
theorem Inv.acquire (hfree : (s.bc.buf i).lock = none) (hi : i ∈ (G.th t).refs) :
    Inv start d₀ R (s.setBuf i fun b => { b with lock := some t })
      (G.set t ((G.th t).addLock i)) :=
  h.of_cache_same rfl (h.cache.acquire hfree hi) ⟨rfl, rfl, rfl, rfl⟩ (.inr id)
    (setBuf_proj Buf.dev rfl) (setBuf_proj Buf.blockno rfl) (setBuf_proj Buf.valid rfl)
    (setBuf_proj Buf.data rfl) fun _ hk _ => hk

/-- `releasesleep`, of a buffer that is not still to be logged or written. -/
theorem Inv.release (hi : i ∈ (G.th t).locks) (hdirt : i ∉ (G.th t).dirt)
    (hmod : ∀ a, G.active = some a → a.mod ≠ some i) :
    Inv start d₀ R (s.setBuf i fun b => { b with lock := none }) (G.set t ((G.th t).unlock i)) := by
  refine h.of_cache_same rfl (h.cache.release ((h.cache.lock t i).mpr hi)) ⟨rfl, rfl, rfl, rfl⟩
    (.inr id) (setBuf_proj Buf.dev rfl) (setBuf_proj Buf.blockno rfl) (setBuf_proj Buf.valid rfl)
    (setBuf_proj Buf.data rfl) fun k hk hw => ?_
  have hki : k ≠ i := by
    rintro rfl
    rcases hw with hw | ⟨a, ha, hm⟩
    · exact hdirt hw
    · exact hmod a ha hm
  exact List.mem_filter.mpr ⟨hk, by simpa using hki⟩

/-- The second half of `brelse`. -/
theorem Inv.dropRef {u : Unit} (hi : i ∈ (G.th t).refs) (hl : i ∉ (G.th t).locks)
    (he : Log.dropRef i t s = .done u s' w) : Inv start d₀ R s' (G.set t ((G.th t).dropRef i)) := by
  set s₁ : State τ := { s with refs := s.refs.erase (t, i) }
  set s₂ := s₁.setBuf i fun b => { b with refcnt := b.refcnt - 1 } with hs₂
  have hc := h.cache.dropRef hi hl
  have hbuf : s'.bc.buf = s₂.bc.buf ∧ s' = { s with bc := s'.bc, refs := s'.refs } ∧
      CacheOk s' (G.set t ((G.th t).dropRef i)) := by
    rw [Log.dropRef] at he
    split at he
    · obtain ⟨rfl, -⟩ := by simpa using he
      exact ⟨rfl, rfl, hc.moveFront i⟩
    · obtain ⟨rfl, -⟩ := by simpa using he
      exact ⟨rfl, rfl, hc⟩
  obtain ⟨hbuf, hs, hc'⟩ := hbuf
  refine h.of_cache_same hs hc' ⟨rfl, rfl, rfl, rfl⟩ (.inr fun hr => by simp [hr] at hi) ?_ ?_ ?_ ?_
    fun k hk _ => hk <;> rw [hbuf]
  · exact setBuf_proj Buf.dev rfl
  · exact setBuf_proj Buf.blockno rfl
  · exact setBuf_proj Buf.valid rfl
  · exact setBuf_proj Buf.data rfl

/-! ## Contents -/

/-- What `bread` finds in its buffer is the current contents of the block: if the buffer was not
valid, no buffer was, so nothing newer than the disk is in the cache. -/
theorem Inv.fill_data (hi : i ∈ (G.th t).locks) :
    (fill (s.bc.buf i) s.disk).data = current d₀ s.hist (s.bc.buf i).blockno := by
  have hc := h.cache.cached hi
  by_cases hv : (s.bc.buf i).valid = true
  · rw [fill, if_pos hv]
    exact h.data.coherent _ i ⟨hc.1, rfl⟩ hv
  · rw [fill, if_neg hv]
    by_contra hne
    obtain ⟨j, hj, hjv, -⟩ := h.data.flushed _ hne
    rw [h.cache.uniq _ j i hj ⟨hc.1, rfl⟩] at hjv
    exact hv hjv

/-- The end of `bread`. -/
theorem Inv.fill (hi : i ∈ (G.th t).locks) :
    Inv start d₀ R ((s.setBuf i fun _ => fill (s.bc.buf i) s.disk).note
        [.read t (fill (s.bc.buf i) s.disk).blockno (fill (s.bc.buf i) s.disk).data])
      (G.set t ((G.th t).addFull i)) := by
  set s₁ := s.setBuf i fun _ => Log.fill (s.bc.buf i) s.disk with hs₁
  set e : Event τ := .read t (Log.fill (s.bc.buf i) s.disk).blockno
    (Log.fill (s.bc.buf i) s.disk).data
  have hdev : ∀ j, (s₁.bc.buf j).dev = (s.bc.buf j).dev := setBuf_proj Buf.dev (by simp)
  have hblk : ∀ j, (s₁.bc.buf j).blockno = (s.bc.buf j).blockno := setBuf_proj Buf.blockno (by simp)
  have hcached : ∀ {b j}, Cached s₁ b j ↔ Cached s b j := cached_congr (hdev _) (hblk _)
  have hvalid : ∀ j, (s.bc.buf j).valid = true → (s₁.bc.buf j).valid = true := by
    intro j hj
    by_cases hji : j = i
    · subst hji; simp [hs₁]
    · rwa [hs₁, setBuf_of_ne _ _ _ hji]
  have hcache : CacheOk s₁ (G.set t ((G.th t).addFull i)) := h.cache.fill hi
  have hfull : ∀ u, ∀ j ∈ (G.th u).full, j ∈ ((G.set t ((G.th t).addFull i)).th u).full := by
    intro u j hj
    by_cases hu : u = t
    · subst hu; rw [set_self]; exact .tail _ hj
    · rwa [set_of_ne _ _ hu]
  have hproj : ∀ {α : Type} (p : Mine τ → α), p ((G.th t).addFull i) = p (G.th t) →
      ∀ u, p ((G.set t ((G.th t).addFull i)).th u) = p (G.th u) := fun p hp =>
    set_proj p G hp
  refine ⟨hcache.congr_bc rfl rfl rfl rfl, ⟨fun b j hb hv => ?_, fun b hne => ?_, fun b hb => ?_,
    fun j hj => ?_, fun u j hj => ?_, fun a j ha hj => ?_⟩, ?_, ?_, ?_, ?_⟩
  · by_cases hji : j = i
    · subst hji
      have hb' : (s.bc.buf j).blockno = b := (hcached.mp hb).2
      have hcur : current d₀ (s₁.note [e]).hist = current d₀ s.hist := rfl
      rw [← hb', hcur, ← h.fill_data hi, note_bc, hs₁, setBuf_self]
    · have hv' : (s.bc.buf j).valid = true := by
        have : (s₁.bc.buf j).valid = true := hv
        rwa [hs₁, setBuf_of_ne _ _ _ hji] at this
      have hd : ((s₁.note [e]).bc.buf j).data = (s.bc.buf j).data := by
        rw [note_bc, hs₁, setBuf_of_ne _ _ _ hji]
      rw [hd]
      exact h.data.coherent b j (hcached.mp hb) hv'
  · obtain ⟨j, hj, hv, hw⟩ := h.data.flushed b hne
    exact ⟨j, hcached.mpr hj, hvalid j hv, hw⟩
  · obtain ⟨j, hj, hv⟩ := h.data.pinnedBuf b hb
    exact ⟨j, hcached.mpr hj, hvalid j hv⟩
  · obtain ⟨u, hu⟩ := h.data.dirty j hj
    exact ⟨u, by rwa [hproj Mine.dirt rfl]⟩
  · rw [hproj Mine.dirt rfl] at hj
    rw [hproj Mine.op rfl, hproj Mine.blk rfl]
    obtain ⟨h1, h2, h3⟩ := h.data.dirt u j hj
    exact ⟨h1, hfull u j h2, h3⟩
  · exact hfull _ j (h.data.mod a j ha hj)
  · exact h.log.congr rfl rfl rfl rfl rfl rfl (hproj Mine.op rfl)
  · exact h.live.congr rfl rfl (hproj Mine.live rfl) (hproj Mine.refs rfl)
  · exact h.disk.congr rfl rfl rfl rfl rfl rfl fun a b j _ _ hb => hcached.mpr hb
  · refine h.hist.note rfl ⟨h.hist.ok, ?_⟩ h.hist.volatile h.hist.settled
      (fun u _ => by simp [NoSync, e]) fun u _ => hproj Mine.sync rfl u
    rw [h.fill_data hi, fill_blockno]

end

/-- A change of the contents of a buffer that is then to be logged or written. -/
theorem DataOk.setData {d : Blk} (h : DataOk start d₀ s G) (hc : CacheOk s G)
    (hi : i ∈ (G.th t).full) (hbc : s'.bc = (s.setBuf i fun b => { b with data := d }).bc)
    (hdisk : s'.disk = s.disk)
    (hcur : current d₀ s'.hist = Function.update (current d₀ s.hist) ((G.th t).blk i) d)
    (hpin : pinned s' G' = pinned s G) (hwait : i ∈ s'.dirty ∨ G'.mod = some i)
    (hdirty : s.dirty ⊆ s'.dirty) (hmod : G.mod = none)
    (hdirty' : ∀ j ∈ s'.dirty, ∃ u, j ∈ (G'.th u).dirt)
    (hdirt' : ∀ u, ∀ j ∈ (G'.th u).dirt, j ∈ s'.dirty ∧ j ∈ (G'.th u).full ∧
      (G'.th u).op ≠ none ∧ Home start ((G'.th u).blk j))
    (hmod' : ∀ a j, G'.active = some a → a.mod = some j → j ∈ (G'.th a.thread).full) :
    DataOk start d₀ s' G' := by
  have hci : Cached s ((G.th t).blk i) i := hc.cached (hc.full t i hi).1
  have hcached : ∀ {b j}, Cached s' b j ↔ Cached s b j := by
    intro b j
    refine cached_congr ?_ ?_
    · rw [hbc]; exact setBuf_proj Buf.dev rfl j
    · rw [hbc]; exact setBuf_proj Buf.blockno rfl j
  have hvalid : ∀ j, (s'.bc.buf j).valid = (s.bc.buf j).valid := by
    rw [hbc]; exact setBuf_proj Buf.valid rfl
  refine ⟨fun b j hb hv => ?_, fun b hne => ?_, fun b hb => ?_, hdirty', hdirt', hmod'⟩
  · rw [hcur]
    by_cases hji : j = i
    · subst hji
      rw [← (hcached.mp hb).2, hci.2, Function.update_self, hbc, setBuf_self]
    · have hbne : b ≠ (G.th t).blk i := by
        rintro rfl
        exact hji (hc.uniq _ j i (hcached.mp hb) hci)
      rw [Function.update_of_ne hbne, hbc, setBuf_of_ne _ _ _ hji]
      exact h.coherent b j (hcached.mp hb) (hvalid j ▸ hv)
  · by_cases hb : b = (G.th t).blk i
    · subst hb
      exact ⟨i, hcached.mpr hci, (hvalid i).trans (hc.full t i hi).2, .inr hwait⟩
    · rw [hdisk, hcur, Function.update_of_ne hb] at hne
      obtain ⟨j, hj, hv, hw⟩ := h.flushed b hne
      refine ⟨j, hcached.mpr hj, (hvalid j).trans hv, ?_⟩
      rw [hpin]
      rcases hw with hw | hw | hw
      · exact .inl hw
      · exact .inr (.inl (hdirty hw))
      · simp [hmod] at hw
  · rw [hpin] at hb
    obtain ⟨j, hj, hv⟩ := h.pinnedBuf b hb
    exact ⟨j, hcached.mpr hj, (hvalid j).trans hv⟩

/-- `bwrite` of a locked buffer: afterwards its block is as it should be. -/
theorem DataOk.write (h : DataOk start d₀ s G) (hc : CacheOk s G) (hi : i ∈ (G.th t).full)
    (hbc : s'.bc = s.bc) (hdirty : s'.dirty = s.dirty)
    (hdisk : s'.disk = Function.update s.disk (s.bc.buf i).blockno (s.bc.buf i).data)
    (hcur : current d₀ s'.hist = current d₀ s.hist) (hth : G'.th = G.th)
    (hpin : pinned s' G' = pinned s G) (hmod : ∀ j, G.mod = some j → j = i)
    (hmod' : G'.mod = none) :
    DataOk start d₀ s' G' := by
  have hci : Cached s ((G.th t).blk i) i := hc.cached (hc.full t i hi).1
  have hcached : ∀ {b j}, Cached s' b j ↔ Cached s b j := by
    intro b j
    rw [Cached, Cached, hbc]
  refine ⟨fun b j hb hv => ?_, fun b hne => ?_, fun b hb => ?_, ?_, ?_, fun a j ha hj => ?_⟩
  · rw [hbc, hcur]
    exact h.coherent b j (hcached.mp hb) (by rwa [hbc] at hv)
  · rw [hdisk, hcur] at hne
    have hb : b ≠ (s.bc.buf i).blockno := by
      rintro rfl
      rw [Function.update_self] at hne
      exact hne (h.coherent _ i ⟨hci.1, rfl⟩ (hc.full t i hi).2)
    rw [Function.update_of_ne hb] at hne
    obtain ⟨j, hj, hv, hw⟩ := h.flushed b hne
    rw [hpin, hdirty, hbc]
    refine ⟨j, hcached.mpr hj, hv, hw.imp_right (Or.imp_right fun hm => ?_)⟩
    rw [hmod j hm] at hj
    exact absurd hj.2.symm hb
  · rw [hpin] at hb
    rw [hbc]
    obtain ⟨j, hj, hv⟩ := h.pinnedBuf b hb
    exact ⟨j, hcached.mpr hj, hv⟩
  · rw [hdirty, hth]; exact h.dirty
  · rw [hdirty, hth]; exact h.dirt
  · simp [Ghost.mod, ha, hj] at hmod'

end Log

end TrinityXv6
