import Mathlib.Algebra.Order.BigOperators.Group.List
import TrinityXv6.Log.CommitStep

/-!
# The invariant under the calls of the clients

What a client's modification of a buffer, `log_write`, the critical sections of `begin_op`,
`end_op` and `sys_sync`, the end of recovery and a crash do to the invariant.

The reservation argument is in `Inv.logWrite`: `log.lh.n` plus what the open brackets may still log
is at most `LOGBLOCKS`, so a block that is not listed yet always finds room.
-/

namespace TrinityXv6

namespace Log

open Threads
open List
open Ghost
open Function (update update_of_ne update_self)

/-! ## Lists of brackets -/

section Ops

variable {τ : Type} {t : τ} {b : ℕ} {l l' : List ℕ} {ops : List (τ × List ℕ)}

theorem eq_of_keys (hk : (ops.map Prod.fst).Nodup) (hl : (t, l) ∈ ops)
    (hl' : (t, l') ∈ ops) : l = l' := by
  have := inj_on_of_nodup_map hk hl hl' rfl
  exact (Prod.mk.inj this).2

theorem allowance_le (ops : List (τ × List ℕ)) : allowance ops ≤ ops.length * maxOpBlocks := by
  have h : ∀ x ∈ ops.map (fun o => maxOpBlocks - o.2.length), x ≤ maxOpBlocks := by
    intro x hx
    obtain ⟨o, -, rfl⟩ := mem_map.mp hx
    exact Nat.sub_le _ _
  have := sum_le_card_nsmul _ _ h
  simpa [allowance] using this

variable [DecidableEq τ]

theorem map_fst_logOp : (logOp t b ops).map Prod.fst = ops.map Prod.fst := by
  rw [logOp, map_map]
  refine map_congr_left fun o _ => ?_
  simp only [Function.comp_apply]
  split <;> rfl

theorem length_logOp : (logOp t b ops).length = ops.length := by simp [logOp]

/-- The blocks an open bracket has logged after one more `log_write`. -/
def addLogged (b : ℕ) (l : List ℕ) : List ℕ := if b ∈ l then l else b :: l

theorem mem_logOp {u : τ} : (u, l') ∈ logOp t b ops ↔
    ∃ l, (u, l) ∈ ops ∧ l' = if u = t then addLogged b l else l := by
  rw [logOp, mem_map]
  constructor
  · rintro ⟨⟨v, l⟩, ho, he⟩
    by_cases hc : v = t ∧ b ∉ l
    · obtain ⟨rfl, rfl⟩ := Prod.mk.inj ((if_pos hc).symm.trans he)
      exact ⟨l, ho, by rw [if_pos hc.1, addLogged, if_neg hc.2]⟩
    · obtain ⟨rfl, rfl⟩ := Prod.mk.inj ((if_neg hc).symm.trans he)
      refine ⟨l, ho, ?_⟩
      by_cases hv : v = t
      · have hb : b ∈ l := by_contra fun hb => hc ⟨hv, hb⟩
        rw [if_pos hv, addLogged, if_pos hb]
      · rw [if_neg hv]
  · rintro ⟨l, ho, rfl⟩
    refine ⟨(u, l), ho, ?_⟩
    by_cases hu : u = t
    · by_cases hb : b ∈ l <;> simp [hu, hb, addLogged]
    · simp [hu]

/-- Logging one more block uses up one unit of the allowance. -/
theorem allowance_logOp (hk : (ops.map Prod.fst).Nodup) (hl : (t, l) ∈ ops) (hb : b ∉ l)
    (hlt : l.length < maxOpBlocks) : allowance (logOp t b ops) + 1 = allowance ops := by
  induction ops with
  | nil => cases hl
  | cons o ops ih =>
    rw [map_cons, nodup_cons] at hk
    rcases mem_cons.mp hl with rfl | hl'
    · -- the other brackets are not those of `t`
      have hrest : logOp t b ops = ops := by
        rw [logOp]
        refine (map_congr_left fun o ho => ?_).trans (map_id ops)
        have hne : o.1 ≠ t := fun hc => hk.1 (mem_map.mpr ⟨o, ho, hc⟩)
        simp [hne]
      have hcons : logOp t b ((t, l) :: ops) = (t, b :: l) :: ops := by
        rw [logOp, map_cons, ← logOp, hrest]
        simp [hb]
      rw [hcons]
      simp only [allowance, map_cons, sum_cons, length_cons]
      omega
    · have hne : o.1 ≠ t := fun hc => hk.1 (hc ▸ mem_map.mpr ⟨(t, l), hl', rfl⟩)
      have hcons : logOp t b (o :: ops) = o :: logOp t b ops := by
        rw [logOp, map_cons, ← logOp]
        simp [hne]
      have := ih hk.2 hl'
      rw [hcons]
      simp only [allowance, map_cons, sum_cons] at this ⊢
      omega

theorem logOp_of_mem (hk : (ops.map Prod.fst).Nodup) (hl : (t, l) ∈ ops) (hb : b ∈ l) :
    logOp t b ops = ops := by
  rw [logOp]
  refine (map_congr_left fun o ho => ?_).trans (map_id ops)
  obtain ⟨u, l'⟩ := o
  by_cases hu : u = t
  · subst hu
    rw [eq_of_keys hk ho hl]
    simp [hb]
  · simp [hu]

/-- The bracket of `t` is not among the others. -/
theorem length_filter_ne (hk : (ops.map Prod.fst).Nodup) (ht : t ∈ ops.map Prod.fst) :
    (ops.filter fun o => o.1 ≠ t).length + 1 = ops.length := by
  induction ops with
  | nil => cases ht
  | cons o ops ih =>
    rw [map_cons, nodup_cons] at hk
    by_cases ho : o.1 = t
    · have hrest : ops.filter (fun o => o.1 ≠ t) = ops := filter_eq_self.mpr fun o' ho' => by
        have hne : o'.1 ≠ t := fun hc => hk.1 (ho ▸ hc ▸ mem_map.mpr ⟨o', ho', rfl⟩)
        simpa using hne
      rw [filter_cons_of_neg (by simpa using ho), hrest, length_cons]
    · rw [filter_cons_of_pos (by simpa using ho), length_cons, length_cons]
      have ht' : t ∈ ops.map Prod.fst := by
        rcases mem_cons.mp ht with hc | hc
        · exact absurd hc.symm ho
        · exact hc
      rw [ih hk.2 ht']

theorem allowance_filter_le (t : τ) (ops : List (τ × List ℕ)) :
    allowance (ops.filter fun o => o.1 ≠ t) ≤ allowance ops :=
  ((filter_sublist).map _).sum_le_sum fun _ _ => Nat.zero_le _

end Ops

/-! ## The slot of `log_write` -/

section Slot

variable {lh : LogHeader} {b : ℕ}

theorem slot_of_not_mem (hb : b ∉ listed lh) : lh.slot b = lh.n := by
  rw [LogHeader.slot, List.find?_eq_none.mpr, Option.getD_none]
  intro j hj
  simpa using fun hc => hb (mem_listed.mpr ⟨j, mem_range.mp hj, hc⟩)

theorem slot_of_mem (hb : b ∈ listed lh) : lh.slot b < lh.n ∧ lh.block (lh.slot b) = b := by
  obtain ⟨j, hj, hjb⟩ := mem_listed.mp hb
  have hsome : ((List.range lh.n).find? fun i => lh.block i = b).isSome := by
    rw [List.find?_isSome]
    exact ⟨j, mem_range.mpr hj, by simpa using hjb⟩
  obtain ⟨i, hi⟩ := Option.isSome_iff_exists.mp hsome
  rw [LogHeader.slot, hi, Option.getD_some]
  exact ⟨mem_range.mp (mem_of_find?_eq_some hi), by simpa using List.find?_some hi⟩

theorem slot_le (lh : LogHeader) (b : ℕ) : lh.slot b ≤ lh.n := by
  by_cases hb : b ∈ listed lh
  · exact (slot_of_mem hb).1.le
  · exact (slot_of_not_mem hb).le

theorem listed_push : listed ⟨lh.n + 1, update lh.block lh.n b⟩ = listed lh ++ [b] := by
  simp only [listed, range_succ, map_append, map_cons, map_nil, update_self]
  refine congrArg (· ++ [b]) (map_congr_left fun j hj => ?_)
  exact update_of_ne (mem_range.mp hj).ne _ _

end Slot

variable {τ : Type} {start : ℕ} {d₀ : ℕ → Blk} {R : Rules}
variable {s s' : State τ} {G G' : Ghost τ} {t : τ} {l : List ℕ}

/-- Between commits, a state with the same disk and the same durable contents. -/
theorem DiskOk.of_idle (h : DiskOk start d₀ s G) (hact : G.active = none)
    (hact' : G'.active = none) (hdisk : s'.disk = s.disk)
    (hdur : durable d₀ s'.hist = durable d₀ s.hist)
    (hunp : Log.unpinned s'.hist = Log.unpinned s.hist) : DiskOk start d₀ s' G' where
  recoverable := by rw [hdisk, hdur]; exact h.recoverable
  empty _ := by rw [hdisk]; exact h.empty hact
  stage a ha := by rw [hact'] at ha; cases ha
  unpinned := by rw [hunp, h.unpinned, unpins, unpins, hact, hact']

variable [DecidableEq τ]

theorem Inv.active_of_op (h : Inv start d₀ R s G) (hop : (G.th t).op = some l) :
    G.active = none := by
  by_contra hne
  have := (h.log.op t l).mp hop
  simp [h.log.quiet hne] at this

/-- A thread learns something that is not about buffers. -/
theorem DataOk.setMine {m : Mine τ} (h : DataOk start d₀ s G) (hbc : s'.bc = s.bc)
    (hdisk : s'.disk = s.disk) (hcur : current d₀ s'.hist = current d₀ s.hist)
    (hdirty : s'.dirty = s.dirty) (hlh : s'.log.lh = s.log.lh) (hdirt : m.dirt = (G.th t).dirt)
    (hfull : m.full = (G.th t).full) (hblk : m.blk = (G.th t).blk)
    (hop : (G.th t).dirt ≠ [] → (G.th t).op ≠ none → m.op ≠ none) :
    DataOk start d₀ s' (G.set t m) := by
  have hproj := set_proj Mine.full G hfull
  refine h.congr hbc hdisk hcur hdirty ?_ rfl (set_proj Mine.dirt G hdirt) hproj
    (set_proj Mine.blk G hblk) (fun u hu hou => ?_) h.mod
  · rw [pinned, hlh]
    rfl
  · by_cases hut : u = t
    · subst hut
      rw [set_self]
      exact hop hu hou
    · rwa [set_of_ne _ _ hut]

omit [DecidableEq τ] in
/-- With an empty list no block is pinned. -/
theorem pinned_of_empty (hlh : s'.log.lh = s.log.lh) (hn : s.log.lh.n = 0) :
    pinned s' G' = pinned s G := by
  have hlisted : listed s.log.lh = [] := by rw [listed, hn]; rfl
  rw [pinned, pinned, hlh, hlisted, drop_nil, drop_nil]

theorem Inv.up_of_idle (h : Inv start d₀ R s G) (hact : G.active = none) : s.up = true := by
  by_contra hne
  exact h.log.down (by simpa using hne) hact

/-! ## Inside a bracket -/

/-- What a thread knows after it changed buffer `i`. -/
def Mine.addDirt (m : Mine τ) (i : BufId) : Mine τ := { m with dirt := i :: m.dirt }

variable {i : BufId} {lh lh' : LogHeader} {b : ℕ}

variable (h : Inv start d₀ R s G)
include h

/-- A client's assignment to a buffer. -/
theorem Inv.modify (d : Blk) (hi : i ∈ (G.th t).full) (hop : (G.th t).op = some l)
    (hh : Home start ((G.th t).blk i)) :
    Inv start d₀ R (({ s with dirty := i :: s.dirty }.setBuf i fun b => { b with data := d }).note
      [.modify t (s.bc.buf i).blockno d]) (G.set t ((G.th t).addDirt i)) := by
  have hact : G.active = none := h.active_of_op hop
  have hup : s.up = true := h.up_of_idle hact
  have hc := h.cached_full hi
  rw [hc.2]
  set b := (G.th t).blk i
  set s' := (({ s with dirty := i :: s.dirty }.setBuf i fun b => { b with data := d }).note
    [.modify t b d])
  have hproj : ∀ {α : Type} (p : Mine τ → α), p ((G.th t).addDirt i) = p (G.th t) →
      ∀ u, p ((G.set t ((G.th t).addDirt i)).th u) = p (G.th u) := fun p hp => set_proj p G hp
  refine ⟨?_, ?_, ?_, ?_, ?_, ?_⟩
  · exact ((h.cache.setData i d).setMine (m := (G.th t).addDirt i) rfl rfl rfl rfl).congr_bc rfl rfl
      rfl rfl
  · refine h.data.setData h.cache hi rfl rfl rfl rfl (.inl (.head _))
      (subset_cons_self _ _) (by rw [mod, hact]; rfl) (fun j hj => ?_)
      (fun u j hj => ?_) (fun a j ha _ => ?_)
    · rcases mem_cons.mp hj with rfl | hj
      · exact ⟨t, by rw [set_self]; exact (.head _)⟩
      · obtain ⟨u, hu⟩ := h.data.dirty j hj
        refine ⟨u, ?_⟩
        by_cases hut : u = t
        · subst hut; rw [set_self]; exact .tail _ hu
        · rwa [set_of_ne _ _ hut]
    · rw [hproj Mine.full rfl, hproj Mine.op rfl, hproj Mine.blk rfl]
      have hor : (u = t ∧ j = i) ∨ j ∈ (G.th u).dirt := by
        by_cases hut : u = t
        · subst hut
          rw [set_self] at hj
          exact (mem_cons.mp hj).imp_left fun hji => ⟨rfl, hji⟩
        · rw [set_of_ne _ _ hut] at hj
          exact .inr hj
      rcases hor with ⟨rfl, rfl⟩ | hj
      · exact ⟨(.head _), hi, by rw [hop]; exact Option.some_ne_none _, hh⟩
      · obtain ⟨h1, h2⟩ := h.data.dirt u j hj
        exact ⟨.tail _ h1, h2⟩
    · rw [show (G.set t _).active = none from hact] at ha
      cases ha
  · exact h.log.congr rfl rfl rfl rfl rfl rfl (hproj Mine.op rfl)
  · exact h.live.congr rfl rfl (hproj Mine.live rfl) (hproj Mine.refs rfl)
  · exact h.disk.of_idle hact hact rfl rfl rfl
  · refine h.hist.note rfl h.hist.ok (fun b' hb' => ?_) (fun hs => ?_) (fun u _ => by simp [NoSync])
      fun u _ => hproj Mine.sync rfl u
    · have := h.hist.volatile b' hb'
      rw [if_pos hup] at this
      show update (spec d₀ s.hist).volatile b d b' =
        if s.up then update (current d₀ s.hist) b d b' else _
      rw [if_pos hup]
      by_cases hbb : b' = b
      · rw [hbb, update_self, update_self]
      · rw [update_of_ne hbb, update_of_ne hbb, this]
    · exact h.hist.settled hs

/-- What a thread knows after it logged buffer `i` of block `b`. -/
def Mine.logged (m : Mine τ) (i : BufId) (b : ℕ) : Mine τ :=
  { m with dirt := m.dirt.filter (· ≠ i), op := m.op.map (addLogged b) }

/-- `log.lh` before and after `log_write` of block `b`. -/
def Absorbs (lh lh' : LogHeader) (b : ℕ) : Prop :=
  (b ∈ listed lh ∧ lh' = lh) ∨
    (b ∉ listed lh ∧ lh'.n = lh.n + 1 ∧ listed lh' = listed lh ++ [b] ∧ lh'.n ≤ logBlocks)

omit h in
theorem Absorbs.mem (h : Absorbs lh lh' b) : b ∈ listed lh' := by
  rcases h with ⟨hb, rfl⟩ | ⟨-, -, hl, -⟩
  · exact hb
  · rw [hl]; simp

omit h in
theorem Absorbs.mem_iff {c : ℕ} (h : Absorbs lh lh' b) :
    c ∈ listed lh' ↔ c ∈ listed lh ∨ c = b := by
  rcases h with ⟨hb, rfl⟩ | ⟨-, -, hl, -⟩
  · exact ⟨.inl, fun hor => hor.elim id fun hc => hc ▸ hb⟩
  · rw [hl]; simp

omit h in
/-- An unlisted block finds room: the bracket that logs it has some allowance left. -/
theorem LogOk.room_of_not_mem (h : LogOk start R s G) (hop : (G.th t).op = some l)
    (hb : b ∉ listed s.log.lh) (hlim : R.limit) (hent : s.Entitled t b) :
    l.length < maxOpBlocks ∧ b ∉ l ∧ s.log.lh.n + 1 + allowance (logOp t b s.ops) ≤ logBlocks := by
  have hmem := (h.op t l).mp hop
  have hbl : b ∉ l := fun hc => hb (h.logged _ hmem hc)
  have hlt : l.length < maxOpBlocks := (hent l hmem).resolve_left hbl
  have := allowance_logOp h.keys hmem hbl hlt
  have hroom := (h.room hlim).2
  exact ⟨hlt, hbl, by omega⟩

omit h in
theorem LogOk.logWrite (h : LogOk start R s G) (hact : G.active = none) (hop : (G.th t).op = some l)
    (hb : Home start b ∧ b < 2 ^ 32) (hent : R.limit → s.Entitled t b)
    (hlh : Absorbs s.log.lh lh' b) (hlog : s'.log = { s.log with lh := lh' })
    (hops : s'.ops = logOp t b s.ops) (hup : s'.up = s.up) (hcom : s'.committer = s.committer)
    (hhist : s'.hist = s.hist) : LogOk start R s' (G.set t ((G.th t).logged i b)) := by
  have hmem := (h.op t l).mp hop
  have hne : s'.ops ≠ [] := by
    rw [hops, ← length_pos_iff, length_logOp]
    exact length_pos_of_mem hmem
  refine {
    n_le := ?_
    nodup := ?_
    home := fun c hc => ?_
    outstanding := by rw [hlog, hops, length_logOp]; exact h.outstanding
    keys := by rw [hops, map_fst_logOp]; exact h.keys
    op := fun u l' => ?_
    logged := fun o ho => ?_
    committing := by rw [hlog, hup]; exact h.committing
    committer := by rw [hcom, hup]; exact h.committer
    quiet := fun hc => absurd hact hc
    up := by rw [hup]; exact h.up
    down := by rw [hup]; exact h.down
    idle := fun _ ho => absurd ho hne
    ncommit := by rw [hlog, hhist]; exact h.ncommit
    room := fun hlim => ?_ }
  · rw [hlog]
    rcases hlh with ⟨-, rfl⟩ | ⟨-, -, -, hn⟩
    · exact h.n_le
    · exact hn
  · rw [hlog]
    rcases hlh with ⟨-, rfl⟩ | ⟨hnb, -, hl, -⟩
    · exact h.nodup
    · rw [hl]
      exact h.nodup.append (nodup_singleton b) (by simpa using hnb)
  · rw [hlog] at hc
    rcases hlh.mem_iff.mp hc with hc | rfl
    · exact h.home c hc
    · exact hb
  · rw [hops, mem_logOp]
    by_cases hu : u = t
    · subst hu
      rw [set_self]
      simp only [Mine.logged, hop, Option.map_some, Option.some.injEq, if_true]
      constructor
      · rintro rfl
        exact ⟨l, hmem, rfl⟩
      · rintro ⟨l'', hl'', rfl⟩
        rw [eq_of_keys h.keys hmem hl'']
    · rw [set_of_ne _ _ hu, h.op]
      simp [hu]
  · rw [hops] at ho
    obtain ⟨l'', ho', he⟩ := mem_logOp.mp (show (o.1, o.2) ∈ _ from ho)
    rw [hlog, he]
    intro c hc
    refine hlh.mem_iff.mpr ?_
    split at hc
    · rw [addLogged] at hc
      split at hc
      · exact .inl (h.logged _ ho' hc)
      · rcases mem_cons.mp hc with rfl | hc
        · exact .inr rfl
        · exact .inl (h.logged _ ho' hc)
    · exact .inl (h.logged _ ho' hc)
  · obtain ⟨hmax, hroom⟩ := h.room hlim
    by_cases hbl : b ∈ l
    · have hlh' : lh' = s.log.lh := by
        rcases hlh with ⟨-, rfl⟩ | ⟨hnb, -⟩
        · rfl
        · exact absurd (h.logged _ hmem hbl) hnb
      rw [hops, logOp_of_mem h.keys hmem hbl, hlog, hlh']
      exact ⟨hmax, hroom⟩
    · have hlt : l.length < maxOpBlocks := (hent hlim l hmem).resolve_left hbl
      have hall := allowance_logOp h.keys hmem hbl hlt
      refine ⟨fun o ho => ?_, ?_⟩
      · rw [hops] at ho
        obtain ⟨l'', ho', he⟩ := mem_logOp.mp (show (o.1, o.2) ∈ _ from ho)
        rw [he]
        split
        · next hu =>
          have hl'' : l = l'' := eq_of_keys h.keys hmem (by rw [← hu]; exact ho')
          rw [← hl'', addLogged, if_neg hbl]
          exact hlt
        · exact hmax _ ho'
      · rw [hlog, hops]
        show lh'.n + _ ≤ _
        rcases hlh with ⟨-, rfl⟩ | ⟨-, hn, -, -⟩ <;> omega

/-- `log_write` -/
theorem Inv.logWrite {u : Unit} {w : List Chan} (hi : i ∈ (G.th t).full)
    (hop : (G.th t).op = some l) (hb : Home start ((G.th t).blk i) ∧ (G.th t).blk i < 2 ^ 32)
    (hent : R.limit → s.Entitled t ((G.th t).blk i)) (he : logWriteLocked i t s = .done u s' w) :
    Inv start d₀ R s' (G.set t ((G.th t).logged i ((G.th t).blk i))) := by
  have hact : G.active = none := h.active_of_op hop
  have hc := h.cached_full hi
  set b := (G.th t).blk i
  set G' := G.set t ((G.th t).logged i b)
  have hskip : G.skip = 0 := by rw [skip, hact]
  have hpin : pinned s G = listed s.log.lh := by rw [pinned, hskip, drop_zero]
  have hpin' : pinned s' G' = listed s'.log.lh := by
    rw [pinned, show G'.skip = 0 from hskip, drop_zero]
  have hproj : ∀ {α : Type} (p : Mine τ → α), p ((G.th t).logged i b) = p (G.th t) →
      ∀ u, p (G'.th u) = p (G.th u) := fun p hp => set_proj p G hp
  have hmine : CacheOk s G' := h.cache.setMine rfl rfl rfl rfl
  have hb0 : (s.bc.buf i).blockno = b := hc.2
  obtain ⟨lh', hlog, hops, hdirty, hup, hdisk, hcom, hhist, hdata, hlh, hcache⟩ :
      ∃ lh', s'.log = { s.log with lh := lh' } ∧ s'.ops = logOp t b s.ops ∧
      s'.dirty = s.dirty.filter (· ≠ i) ∧ s'.up = s.up ∧ s'.disk = s.disk ∧
      s'.committer = s.committer ∧ s'.hist = s.hist ∧
      (∀ j, s'.bc.buf j = { s.bc.buf j with refcnt := (s'.bc.buf j).refcnt }) ∧
      Absorbs s.log.lh lh' b ∧ CacheOk s' G' := by
    simp only [logWriteLocked, hb0] at he
    split at he
    · cases he
    split at he
    · cases he
    split at he
    · cases he
    by_cases hbl : b ∈ listed s.log.lh
    · obtain ⟨hlt, hblock⟩ := slot_of_mem hbl
      rw [if_neg hlt.ne] at he
      obtain ⟨-, rfl, -⟩ := Outcome.done.inj he
      have hsame : (⟨s.log.lh.n, update s.log.lh.block (s.log.lh.slot b) b⟩ : LogHeader) =
          s.log.lh := by
        rw [show update s.log.lh.block (s.log.lh.slot b) b = s.log.lh.block from
          Function.update_eq_iff.mpr ⟨hblock.symm, fun _ _ => rfl⟩]
      refine ⟨_, rfl, rfl, rfl, rfl, rfl, rfl, rfl, fun j => rfl, .inl ⟨hbl, hsame⟩, ?_⟩
      refine hmine.congr_bc rfl rfl rfl ?_
      rw [pinned, pinned, hsame]
    · have hslot := slot_of_not_mem hbl
      rw [if_pos hslot, hslot] at he
      obtain ⟨-, rfl, -⟩ := Outcome.done.inj he
      next hn _ _ =>
      have hlh : Absorbs s.log.lh ⟨s.log.lh.n + 1, update s.log.lh.block s.log.lh.n b⟩ b :=
        .inr ⟨hbl, rfl, listed_push, by show s.log.lh.n + 1 ≤ logBlocks; omega⟩
      refine ⟨_, rfl, rfl, rfl, rfl, rfl, rfl, rfl, fun j => ?_, hlh, ?_⟩
      · by_cases hji : j = i
        · subst hji; simp [bpin]
        · simp [bpin, setBuf_of_ne _ _ _ hji]
      · have hp : pinned s G' = listed s.log.lh := by
          rw [pinned, show G'.skip = 0 from hskip, drop_zero]
        refine hmine.repin hc rfl rfl rfl (fun c hcb => ?_) ?_
        · rw [hpin', hp]
          exact hlh.mem_iff.trans (or_iff_left hcb)
        · rw [hpin', hp, if_neg hbl]
          show _ = _ + if b ∈ listed ⟨s.log.lh.n + 1, _⟩ then 1 else 0
          rw [if_pos hlh.mem]
  have hcached : ∀ {c j}, Cached s' c j ↔ Cached s c j := fun {c j} =>
    cached_congr (by rw [hdata j]) (by rw [hdata j])
  have hvalid : ∀ j, (s'.bc.buf j).valid = (s.bc.buf j).valid := fun j => by rw [hdata j]
  have hlh' : s'.log.lh = lh' := by rw [hlog]
  refine ⟨hcache, ⟨fun c j hj hv => ?_, fun c hne => ?_, fun c hcp => ?_, fun j hj => ?_,
    fun u j hj => ?_, fun a j ha _ => ?_⟩, ?_, ?_, ?_, ?_⟩
  · rw [hdata j, hhist]
    exact h.data.coherent c j (hcached.mp hj) (hvalid j ▸ hv)
  · rw [hdisk, hhist] at hne
    obtain ⟨j, hj, hv, hw⟩ := h.data.flushed c hne
    refine ⟨j, hcached.mpr hj, (hvalid j).trans hv, ?_⟩
    rw [hpin', hlh', hlh.mem_iff, hdirty]
    rcases hw with hw | hw | hw
    · exact .inl (.inl (hpin ▸ hw))
    · by_cases hji : j = i
      · subst hji
        exact .inl (.inr (hj.2.symm.trans hb0))
      · exact .inr (.inl (mem_filter.mpr ⟨hw, by simpa using hji⟩))
    · simp [mod, hact] at hw
  · rw [hpin', hlh', hlh.mem_iff] at hcp
    rcases hcp with hcp | rfl
    · obtain ⟨j, hj, hv⟩ := h.data.pinnedBuf c (hpin ▸ hcp)
      exact ⟨j, hcached.mpr hj, (hvalid j).trans hv⟩
    · exact ⟨i, hcached.mpr hc, (hvalid i).trans (h.cache.full t i hi).2⟩
  · rw [hdirty] at hj
    obtain ⟨hj, hji⟩ := mem_filter.mp hj
    obtain ⟨u, hu⟩ := h.data.dirty j hj
    refine ⟨u, ?_⟩
    by_cases hut : u = t
    · subst hut
      rw [set_self]
      exact mem_filter.mpr ⟨hu, hji⟩
    · rwa [set_of_ne _ _ hut]
  · have hmem : j ∈ (G.th u).dirt ∧ j ≠ i ∧ ((G.th u).op ≠ none → (G'.th u).op ≠ none) := by
      by_cases hut : u = t
      · subst hut
        rw [set_self] at hj ⊢
        obtain ⟨hj, hji⟩ := mem_filter.mp hj
        exact ⟨hj, by simpa using hji, fun _ => by simp [Mine.logged, hop]⟩
      · rw [set_of_ne _ _ hut] at hj ⊢
        refine ⟨hj, ?_, id⟩
        rintro rfl
        -- the lock of `i` is held by `t`
        have h1 := (h.cache.lock u j).mpr (h.cache.full u j (h.data.dirt u j hj).2.1).1
        have h2 := (h.cache.lock t j).mpr (h.cache.full t j hi).1
        exact hut (Option.some.inj (h1.symm.trans h2))
    obtain ⟨h1, h2, h3, h4⟩ := h.data.dirt u j hmem.1
    rw [hproj Mine.full rfl, hproj Mine.blk rfl, hdirty]
    exact ⟨mem_filter.mpr ⟨h1, by simpa using hmem.2.1⟩, h2, hmem.2.2 h3, h4⟩
  · rw [show G'.active = none from hact] at ha
    cases ha
  · exact h.log.logWrite hact hop hb hent hlh hlog hops hup hcom hhist
  · exact h.live.congr hup rfl (hproj Mine.live rfl) (hproj Mine.refs rfl)
  · exact h.disk.of_idle hact hact hdisk (by rw [hhist]) (by rw [hhist])
  · refine h.hist.congr hhist hup (fun hi => ?_) (hproj Mine.sync rfl)
    rw [hops] at hi
    have := congrArg List.length hi.2
    rw [length_logOp] at this
    exact ⟨hact, length_eq_zero_iff.mp this⟩

/-! ## Brackets -/

/-- What a thread knows after it opened or closed a bracket. -/
def Mine.setOp (m : Mine τ) (op : Option (List ℕ)) : Mine τ := { m with op := op }

/-- Opening a bracket. -/
theorem Inv.beginOp (hlive : (G.th t).live = true) (hop : (G.th t).op = none)
    (hcom : s.log.committing = false)
    (hroom : ¬ (logBlocks : ℤ) < s.log.lh.n + (s.log.outstanding + 1) * maxOpBlocks) :
    Inv start d₀ R { s with
        log := { s.log with outstanding := s.log.outstanding + 1 }, ops := (t, []) :: s.ops }
      (G.set t ((G.th t).setOp (some []))) := by
  have hup : s.up = true := h.live.live t hlive
  have hact : G.active = none := by
    by_contra hne
    rw [h.log.committing.mpr ⟨hup, hne⟩] at hcom
    cases hcom
  have hnot : ∀ l, (t, l) ∉ s.ops := fun l hl => by
    rw [(h.log.op t l).mpr hl] at hop
    cases hop
  refine ⟨(h.cache.setMine (m := (G.th t).setOp (some [])) rfl rfl rfl rfl).congr_bc
      rfl rfl rfl rfl,
    h.data.setMine rfl rfl rfl rfl rfl rfl rfl rfl fun _ _ => Option.some_ne_none _, ?_, ?_, ?_, ?_⟩
  · refine { h.log with
      outstanding := ?_
      keys := ?_
      op := fun u l => ?_
      logged := fun o ho => ?_
      quiet := fun hc => absurd hact hc
      idle := fun _ ho => absurd ho (cons_ne_nil _ _)
      room := fun hlim => ?_ }
    · simp only [length_cons, Nat.cast_add, Nat.cast_one, h.log.outstanding]
    · rw [map_cons, nodup_cons]
      refine ⟨fun hc => ?_, h.log.keys⟩
      obtain ⟨⟨u, l⟩, ho, rfl⟩ := mem_map.mp hc
      exact hnot l ho
    · by_cases hu : u = t
      · subst hu
        rw [set_self, mem_cons]
        simp only [Mine.setOp, Option.some.injEq, Prod.mk.injEq, true_and]
        exact ⟨fun hl => .inl hl.symm, fun hl => hl.elim Eq.symm fun hc => absurd hc (hnot l)⟩
      · rw [set_of_ne _ _ hu, h.log.op]
        simp [hu]
    · rcases mem_cons.mp ho with rfl | ho
      · exact nil_subset _
      · exact h.log.logged o ho
    · obtain ⟨hmax, -⟩ := h.log.room hlim
      refine ⟨fun o ho => ?_, ?_⟩
      · rcases mem_cons.mp ho with rfl | ho
        · exact Nat.zero_le _
        · exact hmax o ho
      · have hle := allowance_le s.ops
        have hcons : allowance ((t, []) :: s.ops) = maxOpBlocks + allowance s.ops := rfl
        have hout := h.log.outstanding
        show s.log.lh.n + allowance ((t, []) :: s.ops) ≤ logBlocks
        rw [hcons]
        rw [hout] at hroom
        push Not at hroom
        have : s.log.lh.n + (s.ops.length + 1) * maxOpBlocks ≤ logBlocks := by exact_mod_cast hroom
        rw [Nat.add_mul] at this
        omega
  · exact h.live.congr rfl rfl (set_proj Mine.live G rfl) (set_proj Mine.refs G rfl)
  · exact h.disk.of_idle hact hact rfl rfl rfl
  · exact h.hist.congr rfl rfl (fun hc => absurd hc.2 (cons_ne_nil _ _)) (set_proj Mine.sync G rfl)

omit h in
/-- What closing a bracket does to the bookkeeping of the log, apart from the commit it may
start. -/
theorem LogOk.close (h : LogOk start R s G) (hop : (G.th t).op = some l) :
    (∀ u l', ((G.set t ((G.th t).setOp none)).th u).op = some l' ↔
      (u, l') ∈ s.ops.filter fun o => o.1 ≠ t) ∧
    ((s.ops.filter fun o => o.1 ≠ t).map Prod.fst).Nodup ∧
    s.log.outstanding - 1 = (s.ops.filter fun o => o.1 ≠ t).length ∧
    (R.limit → (∀ o ∈ s.ops.filter fun o => o.1 ≠ t, o.2.length ≤ maxOpBlocks) ∧
      s.log.lh.n + allowance (s.ops.filter fun o => o.1 ≠ t) ≤ logBlocks) := by
  have hmem := (h.op t l).mp hop
  refine ⟨fun u l' => ?_, h.keys.sublist ((filter_sublist).map _), ?_, fun hlim =>
    ⟨fun o ho => (h.room hlim).1 o (mem_of_mem_filter ho), ?_⟩⟩
  · rw [mem_filter]
    by_cases hu : u = t
    · subst hu
      rw [set_self]
      simp [Mine.setOp]
    · rw [set_of_ne _ _ hu, h.op]
      simp [hu]
  · have := length_filter_ne h.keys (mem_map.mpr ⟨(t, l), hmem, rfl⟩)
    rw [h.outstanding, ← this]
    push_cast
    omega
  · have hle := allowance_filter_le t s.ops
    exact (Nat.add_le_add_left hle _).trans (h.room hlim).2

/-- Closing a bracket while others are open. -/
theorem Inv.endOp (hop : (G.th t).op = some l) (hdirt : (G.th t).dirt = [])
    (hout : s.log.outstanding - 1 ≠ 0) :
    Inv start d₀ R ({ s with
        log := { s.log with outstanding := s.log.outstanding - 1 },
        ops := s.ops.filter fun o => o.1 ≠ t }.note [.endRet t])
      (G.set t ((G.th t).setOp none)) := by
  have hact : G.active = none := h.active_of_op hop
  have hup : s.up = true := h.up_of_idle hact
  obtain ⟨hops, hkeys, hlen, hroom⟩ := h.log.close hop
  have hne : (s.ops.filter fun o => o.1 ≠ t) ≠ [] := fun hc => by
    rw [hc] at hlen
    exact hout hlen
  refine ⟨(h.cache.setMine (m := (G.th t).setOp none) rfl rfl rfl rfl).congr_bc rfl rfl rfl rfl,
    h.data.setMine rfl rfl rfl rfl rfl rfl rfl rfl fun hd => absurd hdirt hd, ?_, ?_, ?_, ?_⟩
  · exact { h.log with
      outstanding := hlen
      keys := hkeys
      op := hops
      logged := fun o ho => h.log.logged o (mem_of_mem_filter ho)
      quiet := fun hc => absurd hact hc
      idle := fun _ ho => absurd ho hne
      room := hroom }
  · exact h.live.congr rfl rfl (set_proj Mine.live G rfl) (set_proj Mine.refs G rfl)
  · exact h.disk.of_idle hact hact rfl rfl rfl
  · refine h.hist.note rfl h.hist.ok h.hist.volatile (fun hs => ?_) (fun u _ => by simp [NoSync])
      fun u _ => set_proj Mine.sync G (by rfl) u
    rcases hs with hs | ⟨-, hs⟩
    · rw [show State.up _ = true from hup] at hs
      cases hs
    · exact absurd hs hne

/-- Closing the last bracket starts a commit. -/
theorem Inv.startCommit (hop : (G.th t).op = some l) (hdirt : (G.th t).dirt = [])
    (hout : s.log.outstanding - 1 = 0) :
    Inv start d₀ R { s with
        log := { s.log with outstanding := s.log.outstanding - 1, committing := true },
        ops := s.ops.filter fun o => o.1 ≠ t, committer := some t }
      ((G.set t ((G.th t).setOp none)).act (some ⟨t, .wlog 0, none, s.log.lh⟩)) := by
  have hact : G.active = none := h.active_of_op hop
  have hup : s.up = true := h.up_of_idle hact
  obtain ⟨hops, hkeys, hlen, hroom⟩ := h.log.close hop
  have hnil : (s.ops.filter fun o => o.1 ≠ t) = [] := by
    rw [← length_eq_zero_iff]
    exact_mod_cast hlen.symm.trans hout
  set G' := (G.set t ((G.th t).setOp none)).act (some ⟨t, .wlog 0, none, s.log.lh⟩)
  have hne' : G'.active ≠ none := Option.some_ne_none _
  have hskip : G'.skip = G.skip := by rw [skip, skip, hact]; rfl
  have hmod : G.mod = none := by rw [mod, hact]; rfl
  set s' : State τ := { s with
    log := { s.log with outstanding := s.log.outstanding - 1, committing := true },
    ops := s.ops.filter fun o => o.1 ≠ t, committer := some t }
  have hpin : pinned s' G' = pinned s G := by rw [pinned, hskip]; rfl
  have hdata : DataOk start d₀ s (G.set t ((G.th t).setOp none)) :=
    h.data.setMine rfl rfl rfl rfl rfl rfl rfl rfl fun hd => absurd hdirt hd
  refine ⟨(h.cache.setMine (m := (G.th t).setOp none) rfl rfl rfl rfl).congr_bc rfl rfl rfl hpin,
    hdata.act rfl rfl rfl rfl hpin rfl hmod rfl, ?_, ⟨fun u hu => ?_, fun hd => ?_⟩,
    .act h.disk.recoverable ⟨rfl, h.disk.empty hact, Nat.zero_le _,
      fun j hj => absurd hj (Nat.not_lt_zero j), by rintro _ ⟨⟩⟩ ?_, ?_⟩
  · refine { h.log with
      outstanding := hlen
      keys := hkeys
      op := hops
      logged := fun o ho => h.log.logged o (mem_of_mem_filter ho)
      committing := iff_of_true rfl ⟨hup, hne'⟩
      committer := fun u => ?_
      quiet := fun _ => hnil
      up := fun a ha => ?_
      down := fun _ => hne'
      idle := fun hn => absurd hn hne'
      room := hroom }
    · simp [G', s', hup]
    · obtain rfl := Option.some.inj ha
      exact hup
  · have hlive := set_proj Mine.live G (m := (G.th t).setOp none) rfl u
    exact h.live.live u (hlive.symm.trans hu)
  · rw [show s'.up = true from hup] at hd
    cases hd
  · have := h.disk.unpinned
    rw [unpins, hact] at this
    exact this
  · exact h.hist.congr rfl rfl (fun hc => absurd hc.1 hne') (set_proj Mine.sync G rfl)

/-- A commit with nothing logged is over at once. -/
theorem Inv.noCommit (ha : G.active = some ⟨t, .wlog 0, none, lh⟩) (hn : s.log.lh.n = 0) :
    Inv start d₀ R s (G.act (some ⟨t, .fin false, none, lh⟩)) := by
  obtain ⟨(hlh : s.log.lh = lh), h0, -⟩ := h.disk.stage _ ha
  set G' := G.act (some ⟨t, .fin false, none, lh⟩)
  have hkey : G'.active.map Active.key = G.active.map Active.key := by rw [ha]; rfl
  have hpin : pinned s G' = pinned s G := by rw [pinned, pinned, skip_eq ha]; rfl
  exact ⟨h.cache.congr_bc rfl rfl rfl hpin,
    h.data.act rfl rfl rfl rfl hpin rfl (mod_eq ha) rfl,
    h.log.congr rfl rfl rfl rfl rfl hkey fun _ => rfl,
    h.live.congr rfl hkey (fun _ => rfl) fun _ => rfl,
    .act h.disk.recoverable ⟨hn, rfl, h0⟩ (h.unpinned_eq ha (by rw [← hlh]; exact hn.symm)),
    h.hist.congr rfl rfl (fun hc => absurd hc.1 (Option.some_ne_none _)) fun _ => rfl⟩

/-- The end of a commit. -/
theorem Inv.endCommit (ha : G.active = some ⟨t, .fin false, none, lh⟩) :
    Inv start d₀ R ({ s with
        log := { s.log with committing := false, ncommit := s.log.ncommit + 1 },
        committer := none }.note [.installed s.disk, .endRet t])
      (G.act none) := by
  obtain ⟨hn, -, h0⟩ := h.disk.stage _ ha
  have hup : s.up = true := h.up_eq ha
  have hne : G.active ≠ none := by rw [ha]; exact Option.some_ne_none _
  set s' : State τ := { s with
    log := { s.log with committing := false, ncommit := s.log.ncommit + 1 },
    committer := none }.note [.installed s.disk, .endRet t]
  have hpin : pinned s' (G.act none) = pinned s G := pinned_of_empty rfl hn
  refine ⟨h.cache.congr_bc rfl rfl rfl hpin,
    h.data.act rfl rfl rfl rfl hpin rfl (mod_eq ha) rfl, ?_, ⟨h.live.live, fun hd => ?_⟩,
    ⟨h.disk.recoverable, fun _ => h0, nofun, rfl⟩, ?_⟩
  · refine { h.log with
      committing := iff_of_false (by simp [s']) fun hc => hc.2 rfl
      committer := fun u => iff_of_false (by simp [s']) (by rintro ⟨-, a, ⟨⟩, -⟩)
      quiet := fun hc => absurd rfl hc
      up := fun a ha' => by cases ha'
      down := fun hd => ?_
      idle := fun _ _ => hn
      ncommit := ?_ }
    · rw [show s'.up = true from hup] at hd
      cases hd
    · show s.log.ncommit + 1 = ((commits s.hist + 1 : ℕ) : ℤ)
      rw [h.log.ncommit]
      push_cast
      rfl
  · rw [show s'.up = true from hup] at hd
    cases hd
  · have hret : HistInv start d₀ (s.note [.endRet t]) G :=
      h.hist.note rfl h.hist.ok h.hist.volatile
        (fun hs => hs.elim (fun hc => by rw [note_up, hup] at hc; cases hc)
          fun hc => absurd hc.1 hne)
        (fun u _ => by simp [NoSync]) fun _ _ => rfl
    have hdisk : ∀ b, Home start b → s.disk b = current d₀ s.hist b ∧
        durable d₀ s.hist b = s.disk b ∧ (spec d₀ s.hist).volatile b = s.disk b := fun b hb => by
      obtain ⟨hcur, hdur⟩ := h.disk_fin ha hb
      refine ⟨hcur, hdur.trans hcur.symm, ?_⟩
      rw [h.hist.volatile b hb, if_pos hup, hcur]
    refine hret.note rfl ⟨h.hist.ok, hdisk⟩ h.hist.volatile
      (fun _ => trivial) (fun u _ => by simp [NoSync]) fun _ _ => rfl

/-! ## `sys_sync` -/

/-- What a thread knows when it enters or leaves `sys_sync`. -/
def Mine.setSync (m : Mine τ) (x : Option (ℤ × List (Event τ))) : Mine τ := { m with sync := x }

/-- An action that only notes events of `sys_sync`. -/
theorem Inv.of_hist {x : Option (ℤ × List (Event τ))} {es : List (Event τ)}
    (hcur : current d₀ (es ++ s.hist) = current d₀ s.hist)
    (hdur : durable d₀ (es ++ s.hist) = durable d₀ s.hist)
    (hunp : unpinned (es ++ s.hist) = unpinned s.hist)
    (hcom : commits (es ++ s.hist) = commits s.hist)
    (hhist : HistInv start d₀ (s.note es) (G.set t ((G.th t).setSync x))) :
    Inv start d₀ R (s.note es) (G.set t ((G.th t).setSync x)) := by
  exact ⟨(h.cache.setMine (m := (G.th t).setSync x) rfl rfl rfl rfl).congr_bc rfl rfl rfl rfl,
    h.data.setMine rfl rfl hcur rfl rfl rfl rfl rfl fun _ => id,
    h.log.congr rfl rfl rfl rfl hcom rfl (set_proj Mine.op G rfl),
    h.live.congr rfl rfl (set_proj Mine.live G rfl) (set_proj Mine.refs G rfl),
    h.disk.congr rfl rfl hcur hdur hunp rfl fun _ _ _ _ _ hb => hb, hhist⟩

/-- `sys_sync` finds work to wait for. -/
theorem Inv.syncAcq : Inv start d₀ R (s.note [.syncAcq t])
      (G.set t ((G.th t).setSync (some (s.log.ncommit + 1, s.hist)))) := by
  refine h.of_hist rfl rfl rfl rfl ⟨h.hist.ok, h.hist.volatile, h.hist.settled, fun u n C hu => ?_⟩
  rcases update_cases hu with ⟨rfl, ⟨⟩⟩ | ⟨hut, hu⟩
  · refine ⟨?_, [], rfl, by simp [NoSync]⟩
    rw [h.log.ncommit]
  · exact h.hist.sync_append hu (by simp [NoSync, hut])

/-- `sys_sync` finds nothing to wait for. -/
theorem Inv.syncIdle (hact : G.active = none) (hops : s.ops = []) :
    Inv start d₀ R (s.note [.syncRet t, .syncAcq t]) (G.set t ((G.th t).setSync none)) := by
  refine h.of_hist rfl rfl rfl rfl ⟨⟨h.hist.ok, fun B C hB hns => .inl ?_⟩, h.hist.volatile,
    h.hist.settled, fun u n C hu => ?_⟩
  · cases B with
    | nil =>
      obtain ⟨-, rfl⟩ := cons.inj hB
      exact h.hist.settled (.inr ⟨hact, hops⟩)
    | cons e B =>
      obtain ⟨rfl, -⟩ := cons.inj hB
      exact absurd (.head _) hns.1
  · obtain ⟨-, ⟨⟩⟩ | ⟨hut, hu⟩ := update_cases hu
    exact h.hist.sync_append hu (by simp [NoSync, hut])

/-- `sys_sync` returns after waiting. -/
theorem Inv.syncRet {n : ℤ} {C : List (Event τ)} (hsync : (G.th t).sync = some (n, C))
    (hn : ¬ s.log.ncommit < n) :
    Inv start d₀ R (s.note [.syncRet t]) (G.set t ((G.th t).setSync none)) := by
  obtain ⟨hn', B, hB, hns⟩ := h.hist.sync t n C hsync
  refine h.of_hist rfl rfl rfl rfl ⟨⟨h.hist.ok, fun B' C' hB' hns' => .inr ?_⟩, h.hist.volatile,
    h.hist.settled, fun u n C hu => ?_⟩
  · obtain ⟨rfl, rfl⟩ := syncAcq_unique (hB.symm.trans hB') hns.1 hns'.1
    by_contra hcom
    rw [hn', h.log.ncommit, hB, commits_append hcom hns.2.2] at hn
    exact hn (lt_add_one _)
  · obtain ⟨-, ⟨⟩⟩ | ⟨hut, hu⟩ := update_cases hu
    exact h.hist.sync_append hu (by simp [NoSync, hut])

/-! ## Starting and stopping -/

/-- The end of recovery. -/
theorem Inv.startUp (ha : G.active = some ⟨t, .fin true, none, lh⟩) :
    Inv start d₀ R ({ s with up := true }.note [.recovered s.disk]) (G.act none) := by
  obtain ⟨hn, -, h0⟩ := h.disk.stage _ ha
  have hup : s.up = false := h.up_eq ha
  set s' : State τ := { s with up := true }.note [.recovered s.disk]
  have hpin : pinned s' (G.act none) = pinned s G := pinned_of_empty rfl hn
  refine ⟨h.cache.congr_bc rfl rfl rfl hpin,
    h.data.act rfl rfl rfl rfl hpin rfl (mod_eq ha) rfl, ?_, ⟨fun _ _ => rfl, nofun⟩,
    ⟨h.disk.recoverable, fun _ => h0, nofun, h.unpinned_eq ha rfl⟩, ?_⟩
  · refine { h.log with
      committing := iff_of_false (fun hc => ?_) fun hc => hc.2 rfl
      committer := fun u => iff_of_false (fun hc => ?_) (by rintro ⟨-, a, ⟨⟩, -⟩)
      quiet := fun hc => absurd rfl hc
      up := fun a ha' => by cases ha'
      down := fun hd => by cases hd
      idle := fun _ _ => hn }
    · have := (h.log.committing.mp hc).1
      rw [hup] at this
      cases this
    · have := ((h.log.committer u).mp hc).1
      rw [hup] at this
      cases this
  · refine h.hist.note rfl ⟨h.hist.ok, fun b hb => h.disk.recoverable.eq_of_empty h0 hb⟩
      (fun b hb => ?_) (fun _ => h.hist.settled (.inl hup)) (fun u _ => by simp [NoSync])
      fun _ _ => rfl
    have hvol := h.hist.volatile b hb
    rw [hup] at hvol
    exact hvol.trans (h.disk_fin ha hb).2

/-- What every thread knows when the machine starts. -/
def Mine.init : Mine τ := ⟨[], fun _ => 0, [], [], [], none, false, none⟩

/-- The ghost state when thread `t₀` starts recovery. -/
def Ghost.init (t₀ : τ) : Ghost τ where
  th _ := .init
  active := some ⟨t₀, .rhead, none, ⟨0, fun _ => 0⟩⟩

omit h in
/-- `binit` -/
theorem cacheOk_binit (t₀ : τ) (disk : ℕ → Blk) (hist : List (Event τ)) :
    CacheOk (.fresh disk hist) (init t₀) where
  ring := by
    refine ⟨(List.finRange nbuf).reverse ++ [], ?_, ?_, fun i => ?_⟩
    · exact Ring.Links.through_empty.foldl_pushFront _
        (by rw [append_nil]; exact nodup_finRange _)
    · rw [append_nil, nodup_reverse]
      exact nodup_finRange _
    · simp
  uniq b i j hi := absurd hi.1 (by simp [State.fresh, binit])
  refcnt i := by simp [State.fresh, binit, holders, pins]
  count u i := by simp [State.fresh, init, Mine.init]
  blk u i hi := by cases hi
  lock u i := by simp [State.fresh, binit, init, Mine.init]
  lock_ref u i hi := by cases hi
  full u i hi := by cases hi

omit h in
/-- The machine as it starts recovery, from a disk that recovery can complete. -/
theorem Inv.fresh (t₀ : τ) {disk : ℕ → Blk} {hist : List (Event τ)}
    (hcur : current d₀ hist = disk) (hrec : Recoverable start disk (durable d₀ hist))
    (hvol : (spec d₀ hist).volatile = durable d₀ hist) (hunp : unpinned hist = 0)
    (hcom : commits hist = 0) (hset : Settled hist) (hok : HistOk start d₀ hist) :
    Inv start d₀ R (.fresh disk hist) (init t₀) where
  cache := cacheOk_binit t₀ disk hist
  data :=
    { coherent := fun b i hb => absurd hb.1 (by simp [State.fresh, binit])
      flushed := fun b hb => absurd (congrFun hcur b).symm hb
      pinnedBuf := fun b hb => by cases hb
      dirty := fun i hi => by cases hi
      dirt := fun u i hi => by cases hi
      mod := fun a i ha hi => by
        obtain rfl := Option.some.inj ha
        cases hi }
  log :=
    { n_le := Nat.zero_le _
      nodup := nodup_nil
      home := fun b hb => by cases hb
      outstanding := rfl
      keys := nodup_nil
      op := fun u l => by simp [init, Mine.init, State.fresh]
      logged := fun o ho => by cases ho
      committing := by simp [State.fresh, LogState.zero]
      committer := by simp [State.fresh]
      quiet := fun _ => rfl
      up := fun a ha => by
        obtain rfl := Option.some.inj ha
        rfl
      down := fun _ => Option.some_ne_none _
      idle := fun hn => absurd hn (Option.some_ne_none _)
      ncommit := by
        show (0 : ℤ) = (commits hist : ℕ)
        rw [hcom]
        rfl
      room := fun _ => ⟨fun o ho => (by cases ho), Nat.zero_le _⟩ }
  live := ⟨fun u hu => (by cases hu), fun _ _ _ _ _ => rfl⟩
  disk :=
    { recoverable := hrec
      empty := fun hn => absurd hn (Option.some_ne_none _)
      stage := fun a ha => by
        obtain rfl := Option.some.inj ha
        exact ⟨rfl, rfl⟩
      unpinned := hunp }
  hist :=
    { ok := hok
      volatile := fun b _ => congrFun hvol b
      settled := fun _ => hset
      sync := fun u n C hu => by cases hu }

/-- A crash at any time leaves a disk that recovery can complete. -/
theorem Inv.crash (t₀ : τ) : Inv start d₀ R s.crash (init t₀) :=
  .fresh t₀ rfl h.disk.recoverable rfl rfl rfl trivial h.hist.ok

/-- What a thread knows when it makes a call. -/
def Mine.call (m : Mine τ) : Mine τ := { m with live := true }

theorem Inv.call (t : τ) (hup : s.up = true) : Inv start d₀ R s (G.set t (G.th t).call) := by
  refine ⟨h.cache.setMine rfl rfl rfl rfl,
    h.data.setMine rfl rfl rfl rfl rfl rfl rfl rfl fun _ => id,
    h.log.congr rfl rfl rfl rfl rfl rfl (set_proj Mine.op G rfl), ⟨fun _ _ => hup, fun hd => ?_⟩,
    h.disk.congr rfl rfl rfl rfl rfl rfl fun _ _ _ _ _ hb => hb,
    h.hist.congr rfl rfl id (set_proj Mine.sync G rfl)⟩
  rw [hup] at hd
  cases hd

end Log

end TrinityXv6
