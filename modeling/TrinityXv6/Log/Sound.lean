import TrinityXv6.Log.Safe

/-!
# The machine keeps the invariant

Every call a client may make is safe, and so is booting; hence the invariant holds in every state
the machine can reach, whatever the interleaving and wherever it crashes.
-/

namespace TrinityXv6

namespace Log

open Threads
open Ghost

theorem calm_init {τ : Type} : (Mine.init : Mine τ).Calm True :=
  ⟨fun _ hi => (by cases hi), rfl, rfl, rfl, fun _ => rfl, fun _ => rfl⟩

variable {τ : Type} [DecidableEq τ] {start : ℕ} {d₀ : ℕ → Blk} {R : Rules} {t : τ} {g : View τ}
  {s : State τ} {G : Ghost τ}

/-- What a thread knows between two calls. -/
structure Idle (g : View τ) : Prop where
  active : g.2 = none
  full : ∀ i ∈ g.1.locks, i ∈ g.1.full
  sync : g.1.sync = none

/-! ## The calls -/

omit [DecidableEq τ] in
theorem LogOk.overflow (h : LogOk start R s G)
    (hn : ¬ s.log.ncommit + 1 < 2 ^ 31) : 2 ^ 31 ≤ commits s.hist + 1 := by
  have := h.ncommit
  omega

theorem safe_call_bread {b : ℕ} (hg : Idle g) (hl : g.1.live = true) :
    Safe (logic start d₀ R none) t (fun _ g' => Idle g') (Call.code start (.bread b)) g := by
  refine Safe.bind (safe_bread (.inl hl) (fun s G hI hv _ _ => ⟨rfl, fun _ hcom _ => ?_⟩)
    fun hr => absurd rfl hr) ?_
  · -- the thread is not inside `commit`
    obtain ⟨-, a, ha, hat⟩ := (hI.log.committer t).mp hcom
    have : (G.view t).2 = some (a.stage, a.mod, a.lh) := by
      rw [view, ha]
      exact if_pos hat
    rw [hv, hg.active] at this
    cases this
  · rintro i _ ⟨rfl, -, -⟩
    refine ⟨hg.active, fun j hj => ?_, hg.sync⟩
    rcases List.mem_cons.mp hj with rfl | hj
    · exact (.head _)
    · exact .tail _ (hg.full j hj)

variable {cfg : Config τ Chan Halt (State τ)} {l : List ℕ} {t₀ : τ}

theorem safe_call_modify {i : BufId} {d : Blk} (hg : Idle g) (hi : i ∈ g.1.full)
    (hop : g.1.op = some l) (hh : Home start (g.1.blk i)) :
    Safe (logic start d₀ R none) t (fun _ g' => Idle g') (Call.code start (.modify i d)) g := by
  refine safe_of_done fun s G hI hr hv hth => ?_
  refine ⟨(), _, _, _, rfl, hI.modify d (hth ▸ hi) (hth ▸ hop) (hth ▸ hh), nofun,
    fun u hu => view_set_of_ne G _ hu, ?_⟩
  rw [view_set_self, hth, hv]
  exact ⟨hg.active, hg.full, hg.sync⟩

theorem safe_call_logWrite {i : BufId} (hg : Idle g) (hi : i ∈ g.1.full) (hop : g.1.op = some l)
    (hb : Home start (g.1.blk i) ∧ g.1.blk i < 2 ^ 32)
    (hlim : R.limit → g.1.blk i ∈ l ∨ l.length < maxOpBlocks) :
    Safe (logic start d₀ R none) t (fun _ g' => Idle g') (Call.code start (.logWrite i)) g := by
  rintro s G ⟨hI, hr⟩ (hv : G.view t = g)
  have hth : G.th t = g.1 := congrArg Prod.fst hv
  have hop' : (G.th t).op = some l := hth ▸ hop
  have hi' : i ∈ (G.th t).full := hth ▸ hi
  have hmem := (hI.log.op t l).mp hop'
  have hent : R.limit → s.Entitled t ((G.th t).blk i) := fun h l' hl' => by
    rw [← eq_of_keys hI.log.keys hmem hl', hth]
    exact hlim h
  have hblk : (s.bc.buf i).blockno = (G.th t).blk i := (hI.cached_full hi').2
  have hout : ¬ s.log.outstanding < 1 := by
    have := List.length_pos_of_mem hmem
    rw [hI.log.outstanding]
    omega
  refine ⟨fun b s' w he => ?_, fun c he => ?_, fun e he => ?_⟩
  · refine ⟨_, ⟨hI.logWrite hi' hop' (hth ▸ hb) hent he, nofun⟩,
      fun u hu => view_set_of_ne G _ hu, ?_⟩
    show Idle ((G.set t _).view t)
    rw [view_set_self, hth, hv]
    exact ⟨hg.active, hg.full, hg.sync⟩
  · exfalso
    simp only [logWriteLocked] at he
    split_ifs at he
  · have hslot := slot_le s.log.lh (s.bc.buf i).blockno
    simp only [logWriteLocked, if_neg hout] at he
    split_ifs at he with h1 h2
    · obtain rfl := Outcome.halt.inj he
      refine ⟨rfl, fun h => ⟨le_antisymm hI.log.n_le h1, ?_⟩⟩
      by_contra hnot
      rw [hblk] at hnot
      have := (hI.log.room_of_not_mem hop' hnot h (hent h)).2.2
      omega
    · omega

theorem safe_call_beginOp (hg : Idle g) (hl : g.1.live = true) (hop : g.1.op = none) :
    Safe (logic start d₀ R none) t (fun _ g' => Idle g') (Call.code start .beginOp) g := by
  rintro s G ⟨hI, hr⟩ (hv : G.view t = g)
  have hth : G.th t = g.1 := congrArg Prod.fst hv
  refine ⟨fun b s' w he => ?_, fun _ _ => rfl, fun e he => ?_⟩
  · dsimp only at he
    split_ifs at he with hcom hroom
    obtain ⟨-, rfl, -⟩ := Outcome.done.inj he
    refine ⟨_, ⟨hI.beginOp (hth ▸ hl) (hth ▸ hop) (by simpa using hcom) hroom, nofun⟩,
      fun u hu => view_set_of_ne G _ hu, ?_⟩
    show Idle ((G.set t _).view t)
    rw [view_set_self, hth, hv]
    exact ⟨hg.active, hg.full, hg.sync⟩
  · dsimp only at he
    split_ifs at he

theorem safe_call_endOp (hg : Idle g) (hop : g.1.op = some l) (hdirt : g.1.dirt = [])
    (hrel : R.release → g.1.refs = [] ∧ g.1.locks = []) :
    Safe (logic start d₀ R none) t (fun _ g' => Idle g') (Call.code start .endOp) g := by
  have hlocked : Safe (logic start d₀ R none) t (fun doCommit g' => g'.1 = g.1.setOp none ∧
      if doCommit then ∃ lh, g'.2 = some (.wlog 0, none, lh) else g'.2 = none)
      (.atomic endOpLocked) g := by
    refine safe_of_done fun s G hI hr hv hth => ?_
    have hop' : (G.th t).op = some l := hth ▸ hop
    have hact : G.active = none := hI.active_of_op hop'
    have hcom : s.log.committing ≠ true := fun hc => (hI.log.committing.mp hc).2 hact
    by_cases hout : s.log.outstanding - 1 = 0
    · refine ⟨true, _, _, _, by rw [endOpLocked, if_neg hcom, if_pos hout],
        hI.startCommit hop' (hth ▸ hdirt) hout, nofun, fun u hu => ?_, ?_, ?_⟩
      · rw [view_act_of_ne hu (fun a ha => ?_) fun a ha => (Option.some.inj ha) ▸ rfl,
          view_set_of_ne G _ hu]
        rw [show (G.set t _).active = none from hact] at ha
        cases ha
      · rw [view_act_some, set_self, hth]
      · rw [view_act_some]
        exact ⟨_, rfl⟩
    · refine ⟨false, _, _, _, by rw [endOpLocked, if_neg hcom, if_neg hout],
        hI.endOp hop' (hth ▸ hdirt) hout, nofun, fun u hu => view_set_of_ne G _ hu, ?_, ?_⟩
      · rw [view_set_self, hth]
      · rw [view_set_self, hv]
        exact hg.active
  refine Safe.bind hlocked ?_
  rintro (_ | _) ⟨m, v⟩ ⟨rfl, hv⟩
  · exact ⟨hv, hg.full, hg.sync⟩
  · obtain ⟨lh, rfl⟩ : ∃ lh, v = some (.wlog 0, none, lh) := hv
    have hcalm : (g.1.setOp none).Calm R.release :=
      ⟨hg.full, hdirt, rfl, hg.sync, fun h => (hrel h).1, fun h => (hrel h).2⟩
    refine Safe.bind (safe_commit rfl hcalm) ?_
    rintro - ⟨m, _⟩ ⟨hc, rfl⟩
    refine safe_of_done_or_halt fun s G hI hr hv hth => ?_
    have ha := active_of_view hv rfl
    by_cases hlt : s.log.ncommit + 1 < 2 ^ 31
    · refine .inl ⟨(), _, _, _, if_pos hlt, hI.endCommit ha, nofun, fun u hu => ?_, ?_⟩
      · exact view_act_of_active hu ha rfl nofun
      · rw [view_act_none, hth]
        exact ⟨rfl, hc.full, hc.sync⟩
    · exact .inr ⟨.overflow, if_neg hlt, rfl, hI.log.overflow hlt⟩

theorem safe_call_sysSync (hg : Idle g) (hl : g.1.live = true) :
    Safe (logic start d₀ R none) t (fun _ g' => Idle g') (Call.code start .sysSync) g := by
  have henter : Safe (logic start d₀ R none) t (fun n g' => g'.2 = none ∧
      g'.1 = g.1.setSync (g'.1.sync) ∧ (n = none → g'.1.sync = none) ∧
      ∀ m, n = some m → ∃ C, g'.1.sync = some (m, C)) (.atomic syncEnter) g := by
    refine safe_of_done_or_halt fun s G hI hr hv hth => ?_
    by_cases hbusy : s.log.committing ∨ 0 < s.log.outstanding
    · by_cases hlt : s.log.ncommit + 1 < 2 ^ 31
      swap
      · exact .inr ⟨.overflow, by rw [syncEnter, if_pos hbusy, if_neg hlt], rfl,
          hI.log.overflow hlt⟩
      refine .inl ⟨_, _, _, _, by rw [syncEnter, if_pos hbusy, if_pos hlt], hI.syncAcq,
        by rintro _ ⟨⟩, fun u hu => view_set_of_ne G _ hu, ?_⟩
      rw [view_set_self, hth, hv]
      refine ⟨hg.active, rfl, by rintro ⟨⟩, ?_⟩
      rintro _ ⟨⟩
      exact ⟨_, rfl⟩
    · obtain ⟨hcom, hout⟩ := not_or.mp hbusy
      have hup : s.up = true := hI.live.live t (hth ▸ hl)
      have hact : G.active = none := by
        by_contra hne
        exact hcom (hI.log.committing.mpr ⟨hup, hne⟩)
      have hops : s.ops = [] := by
        rw [hI.log.outstanding] at hout
        rw [← List.length_eq_zero_iff]
        omega
      refine .inl ⟨_, _, _, _, by rw [syncEnter, if_neg hbusy], hI.syncIdle hact hops,
        by rintro _ ⟨⟩, fun u hu => view_set_of_ne G _ hu, ?_⟩
      rw [view_set_self, hth, hv]
      exact ⟨hg.active, rfl, fun _ => rfl, by rintro _ ⟨⟩⟩
  refine Safe.bind henter ?_
  rintro (_ | n) ⟨m, _⟩ ⟨rfl, hm, hnone, hsome⟩
  · have hm : m = g.1.setSync m.sync := hm
    exact ⟨rfl, by rw [hm]; exact hg.full, hnone rfl⟩
  · have hm : m = g.1.setSync m.sync := hm
    obtain ⟨C, hC⟩ := hsome n rfl
    rintro s G ⟨hI, hr⟩ (hv : G.view t = _)
    have hth : G.th t = m := congrArg Prod.fst hv
    refine ⟨fun b s' w he => ?_, fun _ _ => rfl, fun e he => ?_⟩
    · rw [syncWait] at he
      split_ifs at he with hlt
      obtain ⟨-, rfl, -⟩ := Outcome.done.inj he
      refine ⟨_, ⟨hI.syncRet (hth ▸ hC) hlt, by rintro _ ⟨⟩⟩, fun u hu => view_set_of_ne G _ hu, ?_⟩
      show Idle ((G.set t _).view t)
      rw [view_set_self, hth, hv]
      refine ⟨rfl, ?_, rfl⟩
      rw [hm]
      exact hg.full
    · rw [syncWait] at he
      split_ifs at he

/-! ## The machine -/

/-- Booting. -/
theorem safe_boot (t₀ : τ) : Safe (logic start d₀ R none) t₀ (fun _ g' => Idle g')
    (system start R).boot ((init t₀).view t₀) := by
  have hview : ((init t₀).view t₀).2 = some (.rhead, none, ⟨0, fun _ => 0⟩) := by
    simp [view, init]
  refine Safe.bind (safe_recoverFromLog hview calm_init) ?_
  rintro - ⟨m, _⟩ ⟨hc, lh, rfl⟩
  refine safe_of_done fun s G hI hr hv hth => ?_
  have ha := active_of_view hv rfl
  refine ⟨(), _, _, _, rfl, hI.startUp ha, by rintro _ ⟨⟩, fun u hu => ?_, ?_⟩
  · exact view_act_of_active hu ha rfl (by rintro _ ⟨⟩)
  · rw [view_act_none, hth]
    exact ⟨rfl, hc.full, hc.sync⟩

theorem idle_init {u : τ} (hu : u ≠ t₀) : Idle ((init t₀).view u) := by
  refine ⟨?_, fun i hi => (by cases hi), rfl⟩
  simp [view, init, Ne.symm hu]

/-- **Every call of every client keeps the invariant.** -/
theorem sound : Sound (τ := τ) (system start R) (logic start d₀ R none) Idle where
  call := by
    rintro t c s G ⟨hI, hr⟩ hg ⟨hup, hmay⟩
    have hg : Idle (G.view t) := hg
    set G' := G.set t (G.th t).call
    have hv : G'.view t = ((G.th t).call, (G.view t).2) := view_set_self G t _
    have hg' : Idle (G'.view t) := by rw [hv]; exact ⟨hg.active, hg.full, hg.sync⟩
    have hlive : (G'.view t).1.live = true := by rw [hv]; rfl
    -- what the state says about the thread, its view says too
    have hfull : ∀ {i}, s.Holds t i → i ∈ (G'.view t).1.full := fun {i} hi => by
      rw [hv]
      exact hg.full i ((hI.cache.lock t i).mp hi)
    have hop : s.InOp t → ∃ l, (t, l) ∈ s.ops ∧ (G'.view t).1.op = some l := fun hin => by
      obtain ⟨⟨u, l⟩, ho, rfl⟩ := List.mem_map.mp hin
      exact ⟨l, ho, by rw [hv]; exact (hI.log.op _ l).mpr ho⟩
    have hblk : ∀ {i}, s.Holds t i → (G'.view t).1.blk i = (s.bc.buf i).blockno := fun {i} hi => by
      rw [hv]
      exact (hI.cache.cached ((hI.cache.lock t i).mp hi)).2.symm
    refine ⟨G', ⟨hI.call t hup, hr⟩, fun u hu => view_set_of_ne G _ hu, ?_⟩
    show Safe (logic start d₀ R none) t (fun _ g => Idle g) (Call.code start c) (G'.view t)
    cases c with
    | bread b => exact safe_call_bread hg' hlive
    | modify i d =>
      obtain ⟨hi, hin, hh⟩ := hmay
      obtain ⟨l, -, hl⟩ := hop hin
      exact safe_call_modify hg' (hfull hi) hl (by rw [hblk hi]; exact hh)
    | logWrite i =>
      obtain ⟨hi, hin, hh, h32, hlim⟩ := hmay
      obtain ⟨l, ho, hl⟩ := hop hin
      refine safe_call_logWrite hg' (hfull hi) hl ?_ ?_ <;> rw [hblk hi]
      · exact ⟨hh, h32⟩
      · exact fun h => hlim h l ho
    | brelse i =>
      obtain ⟨hi, hd⟩ := hmay
      refine Safe.mono (safe_brelse ?_ ?_ ?_) ?_
      · rw [hv]
        exact (hI.cache.lock t i).mp hi
      · rw [hv]
        exact fun hc => hd (hI.data.dirt t i hc).1
      · intro st mod lh hc
        rw [hg'.active] at hc
        cases hc
      · rintro - _ rfl
        refine ⟨hg'.active, fun j hj => ?_, hg'.sync⟩
        obtain ⟨hj, hne⟩ := List.mem_filter.mp hj
        exact List.mem_filter.mpr ⟨hg'.full j hj, hne⟩
    | beginOp =>
      refine safe_call_beginOp hg' hlive ?_
      by_contra hne
      obtain ⟨l, hl⟩ := Option.ne_none_iff_exists'.mp hne
      rw [hv] at hl
      exact hmay (List.mem_map.mpr ⟨(t, l), (hI.log.op t l).mp hl, rfl⟩)
    | endOp =>
      obtain ⟨hin, hdirt, hrel⟩ := hmay
      obtain ⟨l, -, hl⟩ := hop hin
      have hrefs : R.release → (G.th t).refs = [] := fun h =>
        List.eq_nil_iff_forall_not_mem.mpr fun i hi => hrel h i (hI.cache.mem_refs hi)
      refine safe_call_endOp hg' hl ?_ fun h => ?_ <;> rw [hv]
      · refine List.eq_nil_iff_forall_not_mem.mpr fun i hi => ?_
        obtain ⟨h1, h2, -⟩ := hI.data.dirt t i hi
        exact hdirt i h1 ((hI.cache.lock t i).mpr (hI.cache.full t i h2).1)
      · refine ⟨hrefs h, List.eq_nil_iff_forall_not_mem.mpr fun i hi => ?_⟩
        have := hI.cache.lock_ref t i hi
        rw [hrefs h] at this
        cases this
    | sysSync => exact safe_call_sysSync hg' hlive
  reset := by
    rintro s G t₀ - ⟨hI, -⟩
    exact ⟨init t₀, ⟨hI.crash t₀, nofun⟩, fun u hu => idle_init hu, safe_boot t₀⟩

/-- The machine at power-on, with an empty log on its disk. -/
theorem good_boot (R : Rules) (h0 : headN (d₀ start) = 0) (t₀ : τ) :
    Good (logic start d₀ R none) Idle (boot start R d₀ t₀) := by
  refine ⟨init t₀, ⟨.fresh t₀ rfl (.of_empty h0 fun _ _ => rfl) rfl rfl rfl trivial trivial,
    nofun⟩, fun u => .inr ?_⟩
  by_cases hu : u = t₀
  · subst hu
    have hcode : ((boot start R d₀ u).threads u).code = (system start R).boot := by
      simp [boot, System.powerOn]
    rw [hcode]
    exact safe_boot u
  · have hcode : ((boot start R d₀ t₀).threads u).code = .ret () := by
      simp [boot, System.powerOn, hu, Thread.idle]
    rw [hcode]
    exact idle_init hu

section

variable (h0 : headN (d₀ start) = 0) (h : Reachable (system start R) (boot start R d₀ t₀) cfg)
include h0 h

theorem good_of_reachable : Good (logic start d₀ R none) Idle cfg :=
  sound.reachable (good_boot R h0 t₀) h

/-- **The invariant holds in every reachable state.** -/
theorem inv_of_reachable : ∃ G, Inv start d₀ R cfg.shared G := by
  obtain ⟨G, hI, -⟩ := good_of_reachable h0 h
  exact ⟨G, hI.1⟩

/-- **The only panics left.** -/
theorem mayHalt_of_reachable {e : Halt} (he : HaltsWith cfg t e) : MayHalt R t cfg.shared e := by
  obtain ⟨G, -, -, hm⟩ := (good_of_reachable h0 h).mayHalt he
  exact hm

end

/-- **Recovery never waits and never panics**: after a crash at any time, it runs to its end and
leaves the durable contents of all home blocks on the disk. -/
theorem recovery_completes (hI : Inv start d₀ R s G) (t₀ : τ) :
    ∃ s', (recoverFromLog start).solo t₀ s.crash = some ((), s') ∧
      ∀ b, Home start b → s'.disk b = durable d₀ s.hist b := by
  have hview : ((init t₀).view t₀).2 = some (.rhead, none, ⟨0, fun _ => 0⟩) := by
    simp [view, init]
  have hsafe : Safe (logic start d₀ R (some (durable d₀ s.hist))) t₀ _ (recoverFromLog start) _ :=
    safe_recoverFromLog hview calm_init
  have hinv : (logic start d₀ R (some (durable d₀ s.hist))).inv s.crash (init t₀) :=
    ⟨hI.crash t₀, fun c hc => ⟨rfl, Option.some.inj hc⟩⟩
  obtain ⟨⟨⟩, s', G', hsolo, ⟨hI', hr⟩, ⟨-, lh, hfin⟩, -⟩ := hsafe.exists_solo
    (fun _ _ _ _ hc => by cases hc.1) (fun _ _ _ _ hc => by cases hc) hinv
  refine ⟨s', hsolo, fun b hb => ?_⟩
  obtain ⟨hcur, hdur⟩ := hI'.disk_fin (active_of_view rfl hfin) hb
  rw [hcur, ← hdur, (hr _ rfl).2]

/-- A bracket that fills block 50 with ones and logs it, up to its `end_op`. The buffer is the first
one that `bget` recycles after boot. -/
def oneBlock : List (Unit × Call) :=
  [((), .beginOp), ((), .bread 50), ((), .modify 1 fun _ => 1), ((), .logWrite 1), ((), .brelse 1)]

end Log

end TrinityXv6
