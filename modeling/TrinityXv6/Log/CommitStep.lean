import TrinityXv6.Log.BioStep

/-!
# The invariant during a commit and during recovery

What the thread inside `commit` or `recover_from_log` does besides `bread` and `brelse`: it changes
the contents of a buffer it holds (`Inv.change`), writes that buffer (`Inv.write`), unpins it
(`Inv.unpin`), or changes `log.lh` (`Inv.clear`, `Inv.load`). Each of the block writes moves the
commit or the recovery to its next `Stage`.
-/

namespace TrinityXv6

namespace Log

open Threads
open Option
open List
open Ghost
open Function (update update_self update_of_ne)

section Ghost

variable {τ : Type} {G : Ghost τ}

/-- Change how far the commit or the recovery is. -/
def Ghost.act (G : Ghost τ) (a : Option (Active τ)) : Ghost τ := { G with active := a }

@[simp] theorem Ghost.act_active (G : Ghost τ) (a : Option (Active τ)) : (G.act a).active = a := rfl

@[simp] theorem Ghost.act_skip (G : Ghost τ) (a : Active τ) : (G.act (some a)).skip = a.skip := rfl

theorem Ghost.skip_eq {a : Active τ} (h : G.active = some a) : G.skip = a.skip := by
  rw [skip, h]

theorem Ghost.unpins_eq {a : Active τ} (h : G.active = some a) : G.unpins = a.unpins := by
  rw [unpins, h]

theorem Ghost.mod_eq {a : Active τ} (h : G.active = some a) : G.mod = a.mod := by
  rw [mod, h]; rfl

end Ghost

/-! ## Events that fill a buffer -/

/-- The log code filled the buffer of block `b` with `d`. -/
inductive Fills {τ : Type} (b : ℕ) (d : Blk) : Event τ → Prop
  | log : Fills b d (.copy .log b d)
  | replay : Fills b d (.copy .replay b d)
  | head : Fills b d (.head b d)

section Fills

variable {τ : Type} {b : ℕ} {d : Blk} {e : Event τ} (d₀ : ℕ → Blk) (h : List (Event τ))

variable (he : Fills b d e)
include he

theorem Fills.current : current d₀ (e :: h) = update (current d₀ h) b d := by
  cases he <;> rfl

theorem Fills.spec : spec d₀ (e :: h) = spec d₀ h := by
  cases he <;> rfl

theorem Fills.unpinned : unpinned (e :: h) = unpinned h := by
  cases he <;> rfl

theorem Fills.commits : commits (e :: h) = commits h := by
  cases he <;> rfl

theorem Fills.settled : Settled (e :: h) ↔ Settled h := by
  cases he <;> exact Iff.rfl

theorem Fills.histOk {start : ℕ} : HistOk start d₀ (e :: h) ↔ HistOk start d₀ h := by
  cases he <;> exact Iff.rfl

theorem Fills.noSync (t : τ) : NoSync t [e] := by
  cases he <;> simp [NoSync]

end Fills

section Header

variable {start k b : ℕ} {lh : LogHeader}

theorem listed_block (hk : k < lh.n) : lh.block k ∈ listed lh :=
  mem_map.mpr ⟨k, mem_range.mpr hk, rfl⟩

theorem mem_listed : b ∈ listed lh ↔ ∃ j < lh.n, lh.block j = b := by
  simp [listed]

theorem listed_inj (hnd : (listed lh).Nodup) {j : ℕ} (hj : j < lh.n) (hk : k < lh.n)
    (h : lh.block j = lh.block k) : j = k :=
  inj_on_of_nodup_map hnd (mem_range.mpr hj) (mem_range.mpr hk) h

theorem listed_drop (hk : k < lh.n) :
    (listed lh).drop k = lh.block k :: (listed lh).drop (k + 1) := by
  have hlen : k < (listed lh).length := by simpa [listed] using hk
  rw [drop_eq_getElem_cons hlen]
  simp [listed]

theorem nodup_listed (h : ∀ j < lh.n, ∀ k < lh.n, lh.block j = lh.block k → j = k) :
    (listed lh).Nodup :=
  nodup_range.map_on fun j hj k hk =>
    h j (mem_range.mp hj) k (mem_range.mp hk)

theorem LogHeader.load_block {d : Blk} (hk : k < headN d) :
    (lh.load d).block k = headBlock d k := if_pos hk

theorem Matches.load (d : Blk) : Matches d (lh.load d) :=
  ⟨rfl, fun _ hj => (LogHeader.load_block hj).symm⟩

theorem not_home_log (hk : k < logBlocks) : ¬ Home start (start + k + 1) := fun hh =>
  hh.ne_log hk rfl

theorem not_home_start : ¬ Home start start := fun hh => hh.ne_start rfl

end Header

variable {τ : Type} [DecidableEq τ] {start : ℕ} {d₀ : ℕ → Blk} {R : Rules}
variable {s s' : State τ} {G G' : Ghost τ} {a : Active τ}
variable {t : τ} {i : BufId} {lh : LogHeader} {b k : ℕ} {mod : Option BufId} {r : Bool}
  {a' : Active τ}

/-! ## What the thread knows -/

omit [DecidableEq τ] in
/-- The disk once the commit or the recovery has moved on. -/
theorem DiskOk.act (hrec : Recoverable start s.disk (durable d₀ s.hist))
    (hst : StageOk start d₀ s a) (hunp : Log.unpinned s.hist = a.unpins) :
    DiskOk start d₀ s (G.act (some a)) := by
  refine ⟨hrec, fun hn => absurd hn (some_ne_none _), fun a' ha' => ?_, hunp⟩
  obtain rfl := some.inj ha'
  exact hst

omit [DecidableEq τ] in
/-- Another list of blocks, at a time when no bracket is open. -/
theorem LogOk.relist (h : LogOk start R s G) (ha : G.active = some a)
    (hkey : a'.key = a.key) (lh : LogHeader) (hn : lh.n ≤ logBlocks) (hnodup : (listed lh).Nodup)
    (hhome : ∀ b ∈ listed lh, Home start b ∧ b < 2 ^ 32) :
    LogOk start R { s with log := { s.log with lh := lh } } (G.act (some a')) := by
  have hops : s.ops = [] := h.quiet (by rw [ha]; exact some_ne_none _)
  have hmap : (G.act (some a')).active.map Active.key = G.active.map Active.key := by
    rw [ha, act_active, map_some, map_some, hkey]
  have hsame : LogOk start R s (G.act (some a')) :=
    h.congr rfl rfl rfl rfl rfl hmap fun _ => rfl
  refine { hsame with
    n_le := hn
    nodup := hnodup
    home := hhome
    logged := fun o ho => ?_
    idle := fun hc => absurd hc (some_ne_none _)
    room := fun _ => ?_ }
  · rw [show State.ops _ = [] from hops] at ho
    cases ho
  · rw [show State.ops _ = [] from hops]
    exact ⟨fun o ho => (by cases ho), hn⟩

variable (h : Inv start d₀ R s G)
include h

theorem Inv.up_eq (ha : G.active = some a) : s.up = !a.stage.recovering :=
  h.log.up a ha

/-- A buffer whose contents a thread has read. -/
theorem Inv.cached_full (hi : i ∈ (G.th t).full) : Cached s ((G.th t).blk i) i :=
  h.cache.cached (h.cache.full t i hi).1

theorem Inv.data_full (hi : i ∈ (G.th t).full) :
    (s.bc.buf i).data = current d₀ s.hist ((G.th t).blk i) :=
  h.data.coherent _ i (h.cached_full hi) (h.cache.full t i hi).2

/-- During a commit or recovery no buffer is modified and not yet logged. -/
theorem Inv.dirty_eq_nil (ha : G.active = some a) : s.dirty = [] :=
  h.data.dirty_eq_nil h.log (h.log.quiet (by rw [ha]; exact some_ne_none a))

/-- During a commit or recovery, a block that is neither pinned nor being written is on the disk
as it should be. -/
theorem Inv.disk_eq (ha : G.active = some a) (hp : b ∉ pinned s G)
    (hmod : ∀ i, a.mod = some i → ¬ Cached s b i) : s.disk b = current d₀ s.hist b := by
  refine h.data.disk_eq fun i hi hw => ?_
  rcases hw with hw | hw | hw
  · exact hp hw
  · simp [h.dirty_eq_nil ha] at hw
  · rw [mod_eq ha] at hw
    exact hmod i hw hi

theorem Inv.home_of_pinned (hb : b ∈ pinned s G) : Home start b :=
  (h.log.home b (mem_of_mem_drop hb)).1

theorem Inv.unpinned_eq (ha : G.active = some a) (hm : a.unpins = m) : unpinned s.hist = m :=
  h.disk.unpinned.trans ((unpins_eq ha).trans hm)

/-! ## Changing a buffer and writing it -/

/-- The thread changes the contents of a buffer it holds. -/
theorem Inv.change {d : Blk} {e : Event τ} (ha : G.active = some a) (hmod : a.mod = none)
    (hi : i ∈ (G.th a.thread).full) (he : Fills ((G.th a.thread).blk i) d e)
    (hvol : s.up = true → ¬ Home start ((G.th a.thread).blk i))
    (hstage : StageOk start d₀ ((s.setBuf i fun b => { b with data := d }).note [e])
      { a with mod := some i }) :
    Inv start d₀ R ((s.setBuf i fun b => { b with data := d }).note [e])
      (G.act (some { a with mod := some i })) := by
  have hskip : (G.act (some { a with mod := some i })).skip = G.skip := by
    rw [skip_eq ha]; rfl
  have hkey : (G.act (some { a with mod := some i })).active.map Active.key =
      G.active.map Active.key := by
    rw [ha]; rfl
  have hpin : pinned ((s.setBuf i fun b => { b with data := d }).note [e])
      (G.act (some { a with mod := some i })) = pinned s G := by
    rw [pinned, hskip]; rfl
  refine ⟨?_, ?_, ?_, ?_, .act ?_ hstage ?_, ?_⟩
  · exact (h.cache.setData i d).congr_bc rfl rfl rfl hpin
  · refine h.data.setData h.cache hi rfl rfl (he.current d₀ s.hist) hpin (.inr rfl)
      (List.Subset.refl _) (by rw [mod_eq ha, hmod]) h.data.dirty h.data.dirt ?_
    intro a' j ha' hj
    obtain rfl := some.inj ha'
    obtain rfl := some.inj hj
    exact hi
  · exact h.log.congr rfl rfl rfl rfl (he.commits s.hist) hkey fun _ => rfl
  · exact h.live.congr rfl hkey (fun _ => rfl) fun _ => rfl
  · show Recoverable start s.disk (durable d₀ (e :: s.hist))
    rw [durable, he.spec]
    exact h.disk.recoverable
  · rw [note_hist, singleton_append, he.unpinned]
    exact h.unpinned_eq ha rfl
  · refine h.hist.note rfl ((he.histOk d₀ s.hist).mpr h.hist.ok) (fun b hb => ?_) (fun hs => ?_)
      (fun t _ => he.noSync t) fun _ _ => rfl
    · have hold := h.hist.volatile b hb
      rw [he.spec, durable, he.spec, hold]
      show _ = if s.up then _ else _
      by_cases hup : s.up = true
      · have hne : b ≠ (G.th a.thread).blk i := fun hc => hvol hup (hc ▸ hb)
        rw [if_pos hup, if_pos hup, he.current, update_of_ne hne]
      · rw [if_neg hup, if_neg hup]; rfl
    · rw [he.settled]
      refine h.hist.settled (hs.imp_right fun hc => ?_)
      exact absurd hc.1 (some_ne_none _)

/-- The thread writes a buffer it holds, and with that moves on. -/
theorem Inv.write {es : List (Event τ)} (ha : G.active = some a)
    (hi : i ∈ (G.th a.thread).full) (hmod : ∀ j, a.mod = some j → j = i) (hkey : a'.key = a.key)
    (hmod' : a'.mod = none) (hskip : a'.skip = a.skip)
    (hes : es = [] ∨ es = [.commitPoint] ∧ s.up = true) (hdisk : DiskOk start d₀
      ({ s with disk := update s.disk (s.bc.buf i).blockno (s.bc.buf i).data }.note es)
      (G.act (some a'))) :
    Inv start d₀ R
      ({ s with disk := update s.disk (s.bc.buf i).blockno (s.bc.buf i).data }.note es)
      (G.act (some a')) := by
  have hskip' : (G.act (some a')).skip = G.skip := by
    rw [skip_eq ha, act_skip, hskip]
  have hkey' : (G.act (some a')).active.map Active.key = G.active.map Active.key := by
    rw [ha, act_active, map_some, map_some, hkey]
  set s' := { s with disk := update s.disk (s.bc.buf i).blockno (s.bc.buf i).data }.note es
  have hpin : pinned s' (G.act (some a')) = pinned s G := by rw [pinned, hskip']; rfl
  have hcur : current d₀ s'.hist = current d₀ s.hist := by
    rcases hes with rfl | ⟨rfl, -⟩ <;> rfl
  refine ⟨h.cache.congr_bc rfl rfl rfl hpin, ?_, ?_, ?_, hdisk, ?_⟩
  · refine h.data.write h.cache hi rfl rfl rfl hcur rfl hpin (fun j hj => ?_) hmod'
    rw [mod_eq ha] at hj
    exact hmod j hj
  · refine h.log.congr rfl rfl rfl rfl ?_ hkey' fun _ => rfl
    rcases hes with rfl | ⟨rfl, -⟩ <;> rfl
  · exact h.live.congr rfl hkey' (fun _ => rfl) fun _ => rfl
  · have hact : (G.act (some a')).active ≠ none := some_ne_none _
    rcases hes with rfl | ⟨rfl, hup⟩
    · exact h.hist.congr rfl rfl (fun hc => absurd hc.1 hact) fun _ => rfl
    · refine h.hist.note rfl h.hist.ok (fun b hb => ?_) (fun hs => ?_) (fun t _ => by simp [NoSync])
        fun _ _ => rfl
      · have := h.hist.volatile b hb
        rw [if_pos hup] at this
        show _ = if s.up then _ else _
        rw [if_pos hup]
        exact this
      · exact h.hist.settled (hs.imp_right fun hc => absurd hc.1 hact)

/-! ## `write_log` -/

theorem Inv.stage_lh (hlh : s.log.lh = lh) {j : ℕ} (hj : j < lh.n) :
    Home start (lh.block j) ∧ lh.block j < 2 ^ 32 :=
  h.log.home _ (hlh ▸ listed_block (hlh ▸ hj))

theorem Inv.n_le (hlh : s.log.lh = lh) : lh.n ≤ logBlocks :=
  hlh ▸ h.log.n_le

/-- `memmove(to->data, from->data, BSIZE)` -/
theorem Inv.copy_log {dst src : BufId} (ha : G.active = some ⟨t, .wlog k, none, lh⟩) (hk : k < lh.n)
    (hdst : dst ∈ (G.th t).full) (hsrc : src ∈ (G.th t).full)
    (hbd : (G.th t).blk dst = start + k + 1) (hbs : (G.th t).blk src = lh.block k) :
    Inv start d₀ R ((s.setBuf dst fun b => { b with data := (s.bc.buf src).data }).note
        [.copy .log (s.bc.buf dst).blockno (s.bc.buf src).data])
      (G.act (some ⟨t, .wlog k, some dst, lh⟩)) := by
  obtain ⟨(hlh : s.log.lh = lh), h0, hkn, hlog, -⟩ := h.disk.stage _ ha
  have hkl : k < logBlocks := hk.trans_le (h.n_le hlh)
  have hcd : Cached s (start + k + 1) dst := hbd ▸ h.cached_full hdst
  have hd : (s.bc.buf src).data = current d₀ s.hist (lh.block k) := hbs ▸ h.data_full hsrc
  rw [hcd.2]
  refine h.change ha rfl hdst (by rw [hbd]; exact .log)
    (fun _ => by rw [hbd]; exact not_home_log hkl) ?_
  have hcur : ∀ j < lh.n, update (current d₀ s.hist) (start + k + 1) (s.bc.buf src).data
      (lh.block j) = current d₀ s.hist (lh.block j) := fun j hj =>
    update_of_ne ((h.stage_lh hlh hj).1.ne_log hkl) _ _
  refine ⟨hlh, h0, hkn, fun j hj => (hlog j hj).trans (hcur j (hj.trans hk)).symm, fun i hi => ?_⟩
  obtain rfl := some.inj hi
  refine .inl ⟨hk, ?_, ?_⟩
  · exact cached_setData.mpr hcd
  · show update (current d₀ s.hist) (start + k + 1) _ (start + k + 1) =
      update (current d₀ s.hist) (start + k + 1) _ (lh.block k)
    rw [update_self, hcur k hk, hd]

/-- `bwrite(to)`: one more log block is on the disk. -/
theorem Inv.write_logBlock {dst : BufId} (ha : G.active = some ⟨t, .wlog k, some dst, lh⟩)
    (hk : k < lh.n) : Inv start d₀ R
      ({ s with disk := update s.disk (s.bc.buf dst).blockno (s.bc.buf dst).data }.note [])
      (G.act (some ⟨t, .wlog (k + 1), none, lh⟩)) := by
  obtain ⟨(hlh : s.log.lh = lh), h0, hkn, hlog, hmod⟩ := h.disk.stage _ ha
  have hfull : dst ∈ (G.th t).full := h.data.mod _ dst ha rfl
  have hkl : k < logBlocks := hk.trans_le (h.n_le hlh)
  obtain ⟨hcd, hcur⟩ : Cached s (start + k + 1) dst ∧
      current d₀ s.hist (start + k + 1) = current d₀ s.hist (lh.block k) := by
    rcases hmod dst rfl with hm | hm
    · exact hm.2
    · exact absurd hm.1 hk.ne
  have hd : (s.bc.buf dst).data = current d₀ s.hist (lh.block k) := by
    rw [← hcur]
    exact h.data.coherent _ dst hcd (h.cache.full t dst hfull).2
  refine h.write ha hfull (fun j hj => (some.inj hj).symm) rfl rfl rfl (.inl rfl) ?_
  rw [hcd.2, hd]
  have hs : update s.disk (start + k + 1) (current d₀ s.hist (lh.block k)) start =
      s.disk start := update_of_ne (by omega) _ _
  refine .act (h.disk.recoverable.write_log h0 hkl _)
    ⟨hlh, by rw [← h0, ← hs]; rfl, hk, fun j hj => ?_, nofun⟩ (h.unpinned_eq ha rfl)
  show update s.disk (start + k + 1) _ (start + j + 1) = current d₀ s.hist (lh.block j)
  by_cases hjk : j = k
  · subst hjk; exact update_self ..
  · rw [update_of_ne (by omega)]
    exact hlog j (by omega)

/-- The header block is filled with all of `log.lh`. -/
theorem Inv.fill_commit (ha : G.active = some ⟨t, .wlog lh.n, none, lh⟩)
    (hi : i ∈ (G.th t).full) (hb : (G.th t).blk i = start) : Inv start d₀ R
      ((s.setBuf i fun b => { b with data := putHead s.log.lh (s.bc.buf i).data s.log.lh.n }).note
        [.head (s.bc.buf i).blockno (putHead s.log.lh (s.bc.buf i).data s.log.lh.n)])
      (G.act (some ⟨t, .wlog lh.n, some i, lh⟩)) := by
  obtain ⟨(hlh : s.log.lh = lh), h0, hkn, hlog, -⟩ := h.disk.stage _ ha
  have hc : Cached s start i := hb ▸ h.cached_full hi
  rw [hc.2]
  refine h.change ha rfl hi (by rw [hb]; exact .head)
    (fun _ => by rw [hb]; exact not_home_start) ?_
  refine ⟨hlh, h0, le_rfl, fun j hj => ?_, fun j hj => ?_⟩
  · have hne : lh.block j ≠ start := (h.stage_lh hlh hj).1.ne_start
    refine (hlog j hj).trans (Eq.symm ?_)
    exact update_of_ne hne _ _
  · obtain rfl := some.inj hj
    refine .inr ⟨rfl, ?_, ?_⟩
    · exact cached_setData.mpr hc
    · show Matches (update (current d₀ s.hist) start _ start) lh
      rw [update_self, hlh]
      exact Matches.putHead _ (h.n_le hlh) fun j hj => (h.stage_lh hlh hj).2

/-- **The commit point**: the header reaches the disk. -/
theorem Inv.write_commitPoint (ha : G.active = some ⟨t, .wlog lh.n, some i, lh⟩) : Inv start d₀ R
      ({ s with disk := update s.disk (s.bc.buf i).blockno (s.bc.buf i).data }.note
        [.commitPoint])
      (G.act (some ⟨t, .inst 0, none, lh⟩)) := by
  obtain ⟨(hlh : s.log.lh = lh), h0, -, hlog, hmod⟩ := h.disk.stage _ ha
  have hfull : i ∈ (G.th t).full := h.data.mod _ i ha rfl
  obtain ⟨hc, hm⟩ : Cached s start i ∧ Matches (current d₀ s.hist start) lh := by
    rcases hmod i rfl with hm | hm
    · exact absurd hm.1 (lt_irrefl _)
    · exact hm.2
  have hd : (s.bc.buf i).data = current d₀ s.hist start :=
    h.data.coherent _ i hc (h.cache.full t i hfull).2
  have hup : s.up = true := h.up_eq ha
  have hvol : ∀ b, Home start b → (spec d₀ s.hist).volatile b = current d₀ s.hist b := by
    intro b hb
    rw [h.hist.volatile b hb, if_pos hup]
  refine h.write ha hfull (fun j hj => (some.inj hj).symm) rfl rfl rfl (.inr ⟨rfl, hup⟩) ?_
  rw [hc.2, hd]
  have hpin : pinned s G = listed lh := by
    rw [pinned, skip_eq ha, hlh]; rfl
  refine .act ?_ ⟨hlh, rfl, Nat.zero_le _, fun j hj => ?_, hvol⟩ rfl
  · show Recoverable start (update s.disk start _) (spec d₀ s.hist).volatile
    refine .commitPoint hm (h.n_le hlh) (fun j hj => (h.stage_lh hlh hj).1)
      (fun j hj k hk => listed_inj (hlh ▸ h.log.nodup) hj hk) (fun j hj => ?_) fun b hb hne => ?_
    · rw [hvol _ (h.stage_lh hlh hj).1]
      exact hlog j hj
    · rw [hvol b hb]
      refine h.disk_eq ha ?_ fun j hj hcj => ?_
      · rw [hpin, mem_listed]
        rintro ⟨j, hj, hbj⟩
        exact hne j hj hbj
      · obtain rfl := some.inj hj
        exact hb.ne_start (hcj.2.symm.trans hc.2)
  · show update s.disk start _ (start + j + 1) = current d₀ s.hist (lh.block j)
    rw [update_of_ne (by omega)]
    exact hlog j hj

/-! ## `install_trans` at the end of a commit -/

/-- A log block is on the disk as it should be unless it is being written. -/
theorem Inv.disk_logBlock (ha : G.active = some a) (hmod : a.mod = none) (hk : k < logBlocks) :
    s.disk (start + k + 1) = current d₀ s.hist (start + k + 1) := by
  refine h.disk_eq ha (fun hp => not_home_log hk (h.home_of_pinned hp)) fun i hi => ?_
  rw [hmod] at hi
  cases hi

section

variable (ha : G.active = some ⟨t, .inst k, none, lh⟩) (hk : k < lh.n)
include ha hk

/-- `memmove(dbuf->data, lbuf->data, BSIZE)` at the end of a commit has no effect: the home buffer
is still pinned and holds what `write_log` copied from it. -/
theorem Inv.copy_install {dbuf lbuf : BufId} (hd : dbuf ∈ (G.th t).full) (hl : lbuf ∈ (G.th t).full)
    (hbd : (G.th t).blk dbuf = lh.block k) (hbl : (G.th t).blk lbuf = start + k + 1) :
    Inv start d₀ R ((s.setBuf dbuf fun b => { b with data := (s.bc.buf lbuf).data }).note
      [.copy .install (s.bc.buf dbuf).blockno (s.bc.buf lbuf).data]) G := by
  obtain ⟨(hlh : s.log.lh = lh), -, -, hlog, -⟩ := h.disk.stage _ ha
  have hkl : k < logBlocks := hk.trans_le (h.n_le hlh)
  have hsame : (s.bc.buf lbuf).data = (s.bc.buf dbuf).data :=
    calc (s.bc.buf lbuf).data = current d₀ s.hist (start + k + 1) := hbl ▸ h.data_full hl
      _ = s.disk (start + k + 1) := (h.disk_logBlock ha rfl hkl).symm
      _ = current d₀ s.hist (lh.block k) := hlog k hk
      _ = (s.bc.buf dbuf).data := (hbd ▸ h.data_full hd).symm
  rw [hsame, setBuf_data_self]
  refine ⟨h.cache.congr_bc rfl rfl rfl rfl, ⟨h.data.coherent, h.data.flushed, h.data.pinnedBuf,
    h.data.dirty, h.data.dirt, h.data.mod⟩, ?_, ?_, ?_, ?_⟩
  · exact h.log.congr rfl rfl rfl rfl rfl rfl fun _ => rfl
  · exact h.live.congr rfl rfl (fun _ => rfl) fun _ => rfl
  · exact h.disk.congr rfl rfl rfl rfl rfl rfl fun _ _ _ _ _ hb => hb
  · exact h.hist.note rfl h.hist.ok h.hist.volatile h.hist.settled (fun u _ => by simp [NoSync])
      fun _ _ => rfl

/-- `bwrite(dbuf)` -/
theorem Inv.write_install (hi : i ∈ (G.th t).full) (hb : (G.th t).blk i = lh.block k) :
    Inv start d₀ R ({ s with disk := update s.disk (s.bc.buf i).blockno (s.bc.buf i).data }.note [])
      (G.act (some ⟨t, .instW k, none, lh⟩)) := by
  obtain ⟨(hlh : s.log.lh = lh), -, -, hlog, hdur⟩ := h.disk.stage _ ha
  have hc : Cached s (lh.block k) i := hb ▸ h.cached_full hi
  have hd : (s.bc.buf i).data = durable d₀ s.hist (lh.block k) := by
    rw [h.data_full hi, hb, hdur _ (h.stage_lh hlh hk).1]
  refine h.write ha hi (fun j hj => by cases hj) rfl rfl rfl (.inl rfl) ?_
  rw [hc.2, hd]
  have hhome := (h.stage_lh hlh hk).1
  refine .act (h.disk.recoverable.install hhome) ⟨hlh, rfl, hk, fun j hj => ?_, hdur, ?_⟩
    (h.unpinned_eq ha rfl)
  · show update s.disk (lh.block k) _ (start + j + 1) = current d₀ s.hist (lh.block j)
    rw [update_of_ne (hhome.ne_log (hj.trans_le (h.n_le hlh))).symm]
    exact hlog j hj
  · show update s.disk (lh.block k) _ (lh.block k) = current d₀ s.hist (lh.block k)
    rw [update_self, hdur _ hhome]

end

/-- `bunpin(dbuf)` -/
theorem Inv.unpin (ha : G.active = some ⟨t, .instW k, none, lh⟩)
    (hi : i ∈ (G.th t).full) (hb : (G.th t).blk i = lh.block k) :
    Inv start d₀ R ((s.setBuf i fun b => { b with refcnt := b.refcnt - 1 }).note
      [.unpin (s.bc.buf i).blockno]) (G.act (some ⟨t, .inst (k + 1), none, lh⟩)) := by
  obtain ⟨(hlh : s.log.lh = lh), -, (hk : k < lh.n), hlog, hdur, hdisk⟩ := h.disk.stage _ ha
  have hc : Cached s (lh.block k) i := hb ▸ h.cached_full hi
  set f : Buf τ → Buf τ := fun b => { b with refcnt := b.refcnt - 1 }
  set s₁ := s.setBuf i f
  set s' := s₁.note [.unpin (s.bc.buf i).blockno]
  set G' := G.act (some ⟨t, .inst (k + 1), none, lh⟩)
  have hold : pinned s G = lh.block k :: pinned s' G' := by
    rw [pinned, skip_eq ha]
    show (listed s.log.lh).drop k = lh.block k :: (listed s.log.lh).drop (k + 1)
    rw [hlh, listed_drop hk]
  have hnd : (lh.block k :: pinned s' G').Nodup := hold ▸ h.log.nodup.sublist (drop_sublist _ _)
  have hnot : lh.block k ∉ pinned s' G' := (nodup_cons.mp hnd).1
  have hdev : ∀ j, (s'.bc.buf j).dev = (s.bc.buf j).dev := setBuf_proj Buf.dev rfl
  have hblk : ∀ j, (s'.bc.buf j).blockno = (s.bc.buf j).blockno :=
    setBuf_proj Buf.blockno rfl
  have hcached : ∀ {b j}, Cached s' b j ↔ Cached s b j := cached_congr (hdev _) (hblk _)
  have hvalid : ∀ j, (s'.bc.buf j).valid = (s.bc.buf j).valid :=
    setBuf_proj Buf.valid rfl
  have hkey : G'.active.map Active.key = G.active.map Active.key := by rw [ha]; rfl
  have hpos : 0 < (s.bc.buf i).refcnt := h.cache.refcnt_pos_of_pinned hc (hold ▸ (.head _))
  have hmod : G.mod = none := mod_eq ha
  refine ⟨?_, ⟨fun b j hj hv => ?_, fun b hne => ?_, fun b hb' => ?_, h.data.dirty, h.data.dirt,
    fun a' j ha' hj => ?_⟩, ?_, ?_, .act h.disk.recoverable ⟨hlh, rfl, hk, hlog, hdur⟩
      (congrArg (· + 1) (h.unpinned_eq ha rfl)), ?_⟩
  · refine h.cache.repin hc rfl rfl rfl (fun c hcb => ?_) ?_
    · rw [hold, mem_cons]
      exact ⟨.inr, fun hor => hor.resolve_left hcb⟩
    · rw [if_neg hnot, if_pos (hold ▸ (.head _))]
      omega
  · rw [show (s'.bc.buf j).data = (s.bc.buf j).data from setBuf_proj Buf.data rfl j]
    exact h.data.coherent b j (hcached.mp hj) (hvalid j ▸ hv)
  · obtain ⟨j, hj, hv, hw⟩ := h.data.flushed b hne
    refine ⟨j, hcached.mpr hj, (hvalid j).trans hv, ?_⟩
    rcases hw with hw | hw | hw
    · rw [hold, mem_cons] at hw
      -- the block just unpinned is on the disk
      rcases hw with rfl | hw
      · exact absurd hdisk hne
      · exact .inl hw
    · exact .inr (.inl hw)
    · simp [hmod] at hw
  · obtain ⟨j, hj, hv⟩ := h.data.pinnedBuf b (hold ▸ .tail _ hb')
    exact ⟨j, hcached.mpr hj, (hvalid j).trans hv⟩
  · obtain rfl := some.inj ha'
    cases hj
  · exact h.log.congr rfl rfl rfl rfl rfl hkey fun _ => rfl
  · exact h.live.congr rfl hkey (fun _ => rfl) fun _ => rfl
  · exact h.hist.note rfl h.hist.ok h.hist.volatile
      (fun hs => h.hist.settled (hs.imp_right fun hn => absurd hn.1 (some_ne_none _)))
      (fun u _ => by simp [NoSync]) fun _ _ => rfl

/-! ## Clearing the log -/

/-- `log.lh.n = 0`, with every home block in its place. -/
theorem Inv.clear (ha : G.active = some a) (hpin : pinned s G = [])
    (hmod : a.mod = none) (ha' : a' = ⟨a.thread, .clear a.stage.recovering, none, lh⟩)
    (hunp : a.unpins = a'.unpins) (hdisk : ∀ b, Home start b → s.disk b = durable d₀ s.hist b) :
    Inv start d₀ R { s with log := { s.log with lh := { s.log.lh with n := 0 } } }
      (G.act (some a')) := by
  subst ha'
  set s' : State τ := { s with log := { s.log with lh := { s.log.lh with n := 0 } } }
  set G' := G.act (some ⟨a.thread, .clear a.stage.recovering, none, lh⟩)
  have hpin' : pinned s' G' = pinned s G := hpin.symm
  have hne' : G'.active ≠ none := some_ne_none _
  exact ⟨h.cache.congr_bc rfl rfl rfl hpin',
    h.data.act rfl rfl rfl rfl hpin' rfl ((mod_eq ha).trans hmod) rfl,
    h.log.relist ha (by rfl) _ (Nat.zero_le _) nodup_nil (by rintro b ⟨⟩),
    h.live.congr rfl (by rw [ha]; rfl) (fun _ => rfl) fun _ => rfl,
    .act h.disk.recoverable ⟨rfl, hdisk, nofun⟩ (h.unpinned_eq ha hunp),
    h.hist.congr rfl rfl (fun hc => absurd hc.1 hne') fun _ => rfl⟩

/-- The header block is filled with an empty header. -/
theorem Inv.fill_clear (ha : G.active = some ⟨t, .clear r, none, lh⟩)
    (hi : i ∈ (G.th t).full) (hb : (G.th t).blk i = start) : Inv start d₀ R
      ((s.setBuf i fun b => { b with data := putHead s.log.lh (s.bc.buf i).data s.log.lh.n }).note
        [.head (s.bc.buf i).blockno (putHead s.log.lh (s.bc.buf i).data s.log.lh.n)])
      (G.act (some ⟨t, .clear r, some i, lh⟩)) := by
  obtain ⟨hn, hdisk, -⟩ := h.disk.stage _ ha
  have hc : Cached s start i := hb ▸ h.cached_full hi
  rw [hc.2]
  refine h.change ha rfl hi (by rw [hb]; exact .head)
    (fun _ => by rw [hb]; exact not_home_start) ?_
  refine ⟨hn, hdisk, fun j hj => ?_⟩
  obtain rfl := some.inj hj
  refine ⟨cached_setData.mpr hc, ?_⟩
  show headN (update (current d₀ s.hist) start _ start) = 0
  rw [update_self, headN_putHead _ (by rw [hn]; decide), hn]

/-- The empty header reaches the disk. -/
theorem Inv.write_clear (ha : G.active = some ⟨t, .clear r, some i, lh⟩) : Inv start d₀ R
      ({ s with disk := update s.disk (s.bc.buf i).blockno (s.bc.buf i).data }.note [])
      (G.act (some ⟨t, .fin r, none, lh⟩)) := by
  obtain ⟨hn, hdisk, hmod⟩ := h.disk.stage _ ha
  have hfull : i ∈ (G.th t).full := h.data.mod _ i ha rfl
  obtain ⟨hc, h0⟩ := hmod i rfl
  have hd : (s.bc.buf i).data = current d₀ s.hist start :=
    h.data.coherent _ i hc (h.cache.full t i hfull).2
  refine h.write ha hfull (fun j hj => (some.inj hj).symm) rfl rfl rfl (.inl rfl) ?_
  rw [hc.2, hd]
  have hunp : (⟨t, .clear r, some i, lh⟩ : Active τ).unpins =
      (⟨t, .fin r, none, lh⟩ : Active τ).unpins := by cases r <;> rfl
  refine .act (.clear h0 hdisk) ⟨hn, rfl, ?_⟩ (h.unpinned_eq ha hunp)
  show headN (update s.disk start _ start) = 0
  rw [update_self, h0]

/-- When the header is cleared, every home block is on the disk as it should be, and durable. -/
theorem Inv.disk_fin (ha : G.active = some ⟨t, .fin r, none, lh⟩) (hb : Home start b) :
    s.disk b = current d₀ s.hist b ∧ durable d₀ s.hist b = current d₀ s.hist b := by
  obtain ⟨hn, -, h0⟩ := h.disk.stage _ ha
  have hcur : s.disk b = current d₀ s.hist b := by
    refine h.disk_eq ha (fun hp => ?_) fun i hi => by cases hi
    rw [pinned, listed, hn] at hp
    simp at hp
  exact ⟨hcur, by rw [← hcur, h.disk.recoverable.eq_of_empty h0 hb]⟩

/-! ## Recovery -/

section

variable (ha : G.active = some ⟨t, .rhead, none, lh⟩) (hi : i ∈ (G.th t).full)
include ha hi

/-- The header recovery reads is the one on the disk. -/
theorem Inv.head_eq (hb : (G.th t).blk i = start) : (s.bc.buf i).data = s.disk start := by
  rw [h.data_full hi, hb]
  refine (h.disk_eq ha (fun hp => not_home_start (h.home_of_pinned hp)) fun j hj => ?_).symm
  cases hj

/-- The loop of `read_head`. -/
theorem Inv.load (hb : (G.th t).blk i = start) :
    Inv start d₀ R { s with log := { s.log with lh := s.log.lh.load (s.bc.buf i).data } }
      (G.act (some ⟨t, .rinst 0, none, s.log.lh.load (s.bc.buf i).data⟩)) := by
  obtain ⟨hn, -⟩ := h.disk.stage _ ha
  rw [h.head_eq ha hi hb]
  have hrec := h.disk.recoverable
  set d := s.disk start with hd
  set lh' := s.log.lh.load d
  set s' : State τ := { s with log := { s.log with lh := lh' } }
  set G' := G.act (some ⟨t, .rinst 0, none, lh'⟩)
  have hpin : pinned s G = [] := by
    rw [pinned, listed, hn]
    simp
  have hpin' : pinned s' G' = pinned s G := by
    rw [hpin]
    show (listed lh').drop lh'.n = []
    exact drop_eq_nil_of_le (by simp [listed])
  have hne' : G'.active ≠ none := some_ne_none _
  refine ⟨h.cache.congr_bc rfl rfl rfl hpin',
    h.data.act rfl rfl rfl rfl hpin' rfl (mod_eq ha) rfl,
    h.log.relist ha (by rfl) lh' hrec.n_le (nodup_listed fun j hj k hk hjk => ?_) (fun b hb => ?_),
    h.live.congr rfl (by rw [ha]; rfl) (fun _ => rfl) fun _ => rfl,
    .act hrec ⟨rfl, Matches.load d, Nat.zero_le _, fun j hj => absurd hj (Nat.not_lt_zero j),
      by rintro _ ⟨⟩⟩ (h.unpinned_eq ha rfl),
    h.hist.congr rfl rfl (fun hc => absurd hc.1 hne') fun _ => rfl⟩
  · rw [LogHeader.load_block hj, LogHeader.load_block hk] at hjk
    exact hrec.inj j hj k hk hjk
  · obtain ⟨j, hj, rfl⟩ := mem_listed.mp hb
    rw [LogHeader.load_block hj]
    exact ⟨hrec.home j hj, Bytes.getLE_lt _ _ _⟩

end

/-- The durable contents of a block the header on the disk names. -/
theorem Inv.durable_replay (ha : G.active = some ⟨t, .rinst k, mod, lh⟩)
    {j : ℕ} (hj : j < lh.n) : durable d₀ s.hist (lh.block j) = s.disk (start + j + 1) := by
  obtain ⟨-, (hm : Matches (s.disk start) lh), -⟩ := h.disk.stage _ ha
  rw [h.disk.recoverable.logged j (hm.1 ▸ hj), hm.2 j hj]

/-- `memmove(dbuf->data, lbuf->data, BSIZE)` in recovery -/
theorem Inv.copy_replay {dbuf lbuf : BufId} (ha : G.active = some ⟨t, .rinst k, none, lh⟩)
    (hk : k < lh.n) (hd : dbuf ∈ (G.th t).full) (hl : lbuf ∈ (G.th t).full)
    (hbd : (G.th t).blk dbuf = lh.block k) (hbl : (G.th t).blk lbuf = start + k + 1) :
    Inv start d₀ R ((s.setBuf dbuf fun b => { b with data := (s.bc.buf lbuf).data }).note
        [.copy .replay (s.bc.buf dbuf).blockno (s.bc.buf lbuf).data])
      (G.act (some ⟨t, .rinst k, some dbuf, lh⟩)) := by
  obtain ⟨(hlh : s.log.lh = lh), hm, hkn, hdone, -⟩ := h.disk.stage _ ha
  have hkl : k < logBlocks := hk.trans_le (h.n_le hlh)
  have hc : Cached s (lh.block k) dbuf := hbd ▸ h.cached_full hd
  have hdata : (s.bc.buf lbuf).data = s.disk (start + k + 1) := by
    rw [h.data_full hl, hbl, h.disk_logBlock ha rfl hkl]
  have hup : s.up = false := h.up_eq ha
  rw [hc.2]
  refine h.change ha rfl hd (by rw [hbd]; exact .replay)
    (fun hc => by rw [hup] at hc; cases hc) ⟨hlh, hm, hkn, hdone, fun i hi => ?_⟩
  obtain rfl := some.inj hi
  refine ⟨hk, cached_setData.mpr hc, ?_⟩
  show update (current d₀ s.hist) (lh.block k) _ (lh.block k) = s.disk (start + k + 1)
  rw [update_self, hdata]

/-- `bwrite(dbuf)` in recovery -/
theorem Inv.write_replay (ha : G.active = some ⟨t, .rinst k, some i, lh⟩) : Inv start d₀ R
      ({ s with disk := update s.disk (s.bc.buf i).blockno (s.bc.buf i).data }.note [])
      (G.act (some ⟨t, .rinst (k + 1), none, lh⟩)) := by
  obtain ⟨(hlh : s.log.lh = lh), hm, -, hdone, hmod⟩ := h.disk.stage _ ha
  have hfull : i ∈ (G.th t).full := h.data.mod _ i ha rfl
  obtain ⟨(hk : k < lh.n), hc, hcur⟩ := hmod i rfl
  have hhome : ∀ {j}, j < lh.n → Home start (lh.block j) := fun hj => (h.stage_lh hlh hj).1
  have hd : (s.bc.buf i).data = durable d₀ s.hist (lh.block k) := by
    rw [h.data.coherent _ i hc (h.cache.full t i hfull).2, hcur, h.durable_replay ha hk]
  refine h.write ha hfull (fun j hj => (some.inj hj).symm) rfl rfl rfl (.inl rfl) ?_
  rw [hc.2, hd]
  have hlog : ∀ j < lh.n, update s.disk (lh.block k) (durable d₀ s.hist (lh.block k))
      (start + j + 1) = s.disk (start + j + 1) := fun j hj =>
    update_of_ne ((hhome hk).ne_log (hj.trans_le (h.n_le hlh))).symm _ _
  refine .act (h.disk.recoverable.install (hhome hk)) ⟨hlh, ?_, hk, fun j hj => ?_, nofun⟩
    (h.unpinned_eq ha rfl)
  · show Matches (update s.disk (lh.block k) _ start) lh
    rw [update_of_ne (hhome hk).ne_start.symm]
    exact hm
  · show update s.disk (lh.block k) _ (lh.block j) =
      update s.disk (lh.block k) _ (start + j + 1)
    rw [hlog j (by omega)]
    by_cases hjk : j = k
    · subst hjk
      rw [update_self, h.durable_replay ha hk]
    · rw [update_of_ne fun hc =>
        hjk (listed_inj (hlh ▸ h.log.nodup) (by omega) hk hc)]
      exact hdone j (by omega)

/-- When everything is replayed, every home block is as it should be. -/
theorem Inv.disk_replayed (ha : G.active = some ⟨t, .rinst lh.n, none, lh⟩)
    (hb : Home start b) : s.disk b = durable d₀ s.hist b := by
  obtain ⟨-, (hm : Matches (s.disk start) lh), -, hdone, -⟩ := h.disk.stage _ ha
  by_cases hl : ∃ j < lh.n, lh.block j = b
  · obtain ⟨j, hj, rfl⟩ := hl
    rw [hdone j hj, h.durable_replay ha hj]
  · refine h.disk.recoverable.other b hb fun j hj hc => hl ⟨j, hm.1 ▸ hj, ?_⟩
    rw [← hm.2 j (hm.1 ▸ hj), hc]

/-- When everything is installed, every home block is as it should be. -/
theorem Inv.disk_installed (ha : G.active = some ⟨t, .inst lh.n, none, lh⟩) :
    pinned s G = [] ∧ ∀ b, Home start b → s.disk b = durable d₀ s.hist b := by
  obtain ⟨(hlh : s.log.lh = lh), -, -, -, hdur⟩ := h.disk.stage _ ha
  have hpin : pinned s G = [] := by
    rw [pinned, skip_eq ha, hlh]
    show (listed lh).drop lh.n = []
    exact drop_eq_nil_of_le (by simp [listed])
  refine ⟨hpin, fun b hb => ?_⟩
  rw [hdur b hb]
  exact h.disk_eq ha (by rw [hpin]; exact not_mem_nil) fun i hi => by cases hi

/-- Recovery pins nothing. -/
theorem Inv.pinned_recovering (ha : G.active = some a) (hrec : a.stage.recovering = true) :
    pinned s G = [] := by
  have hst := h.disk.stage a ha
  rcases a with ⟨t, st, mod, lh⟩
  have hnil : ∀ n, (listed lh).drop (lh.n + n) = [] := fun n =>
    drop_eq_nil_of_le (by simp [listed])
  have hzero : s.log.lh.n = 0 → pinned s G = [] := fun h0 => by
    rw [pinned, listed, h0, range_zero, map_nil, drop_nil]
  cases st with
  | rinst k =>
    rw [pinned, skip_eq ha, show s.log.lh = lh from hst.1]
    exact hnil 0
  | rhead => exact hzero hst.1
  | clear r => exact hzero hst.1
  | fin r => exact hzero hst.1
  | wlog k => cases hrec
  | inst k => cases hrec
  | instW k => cases hrec

end Log

end TrinityXv6
