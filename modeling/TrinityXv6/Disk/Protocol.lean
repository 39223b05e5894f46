import TrinityXv6.Disk.Step

/-!
# The disk request protocol

What holds in every state that any number of processes, any number of CPUs and the device reach.

## Main results

* `Virtio.runs_call` — every call keeps the invariant and does not halt
* `Virtio.disk_request_protocol` — the protocol
-/

namespace TrinityXv6

namespace Virtio

open Threads Command

variable {ι κ β : Type} [DecidableEq ι] [DecidableEq κ] {s : State ι κ β} {G : Views ι κ β}
  {q : List DescId} {d : List (DescId × β)} {t : Agent ι κ} {r : Request β} {b : β} {n : ℕ}

/-! ## Whole runs -/

/-- The invariant, for some contents of the rings. -/
def Ok (s : State ι κ β) (G : Views ι κ β) : Prop := ∃ q d, Inv s G q d

/-- The obligation of a program: it keeps the invariant and does not halt. -/
abbrev Runs {α : Type} (t : Agent ι κ) (Q : α → View β → Prop) (p : Code ι κ β α) (v : View β) :
    Prop :=
  Safe (guardedLogic (Chan β) (fun _ : Halt => False) Ok) t Q p v

theorem runs_publish (r : Request β) :
    Runs t (fun _ v => v = .published r) publish (.filled r) := by
  refine safe_act_guarded fun s G hI hG => ?_
  obtain ⟨q, d, h⟩ := hI
  exact ⟨_, ⟨q ++ [r.head], d, h.publish hG⟩, rfl⟩

theorem runs_firstTest (r : Request β) :
    Runs t (fun wait v => wait = true ∧ v = .waiting r) (firstTest r) (.published r) := by
  refine safe_act_guarded fun s G hI hG => ?_
  obtain ⟨q, d, h⟩ := hI
  -- the interrupt handler needs the lock to clear the flag
  rw [if_pos (h.rings.disk t r (.inr hG))]
  exact ⟨_, ⟨q, d, h.release hG⟩, rfl, rfl⟩

theorem runs_await (r : Request β) : Runs t (fun _ v => v = .ready r.b) (await r) (.waiting r) := by
  refine safe_act_guarded fun s G hI hG => ?_
  obtain ⟨q, d, h⟩ := hI
  cases hlock : s.vdiskLock with
  | some u => trivial
  | none =>
    cases hdisk : (s.buf r.b).disk with
    | true => trivial
    | false =>
      have hlinked := (h.table.chain t r (by rw [hG]; rfl)).toLinked
      rw [hlinked.finish t]
      exact ⟨_, ⟨q, d, h.finish hG hlock hdisk⟩, rfl⟩

theorem runs_enterIntr : Runs (β := β) t (fun _ v => v = .serving (num + 1)) enterIntr .idle := by
  refine safe_act_guarded fun s G hI hG => ?_
  obtain ⟨q, d, h⟩ := hI
  cases hlock : s.vdiskLock with
  | some u => trivial
  | none =>
    exact ⟨_, ⟨q, d, h.enterIntr hG hlock⟩, rfl⟩

/-- The device finds a descriptor in the avail ring. -/
theorem runs_fetch : Runs (β := β) t (fun _ v => v = .idle) fetch .idle := by
  refine safe_act_guarded fun s G hI hG => ?_
  obtain ⟨q, d, h⟩ := hI
  have hempty : s.seen = s.avail.idx ↔ q = [] := by
    rw [← UInt16.toNat_inj, h.rings.avail.eq_iff_nil (by decide), List.map_eq_nil_iff]
  have hidle : Function.update G t .idle = G := by rw [← hG, Function.update_eq_self]
  by_cases heq : s.seen = s.avail.idx
  · rw [if_pos heq]
    exact ⟨.idle, ⟨q, d, by rwa [hidle]⟩, rfl⟩
  · rw [if_neg heq]
    cases q with
    | nil => exact absurd (hempty.mpr rfl) heq
    | cons i q =>
      have hring : s.avail.ring (Fin.ofNat num s.seen.toNat) = id16 i :=
        (h.rings.avail.pop (by decide)).1
      simp only [hring, id16_toNat, descId_val]
      exact ⟨.idle, ⟨q, d, by rw [hidle]; exact h.fetch⟩, rfl⟩

/-- The device finds a request at every head it has taken. -/
theorem runs_complete (i : DescId) : Runs (β := β) t (fun _ v => v = .idle) (complete i) .idle := by
  refine safe_act_guarded fun s G hI hG => ?_
  obtain ⟨q, d, h⟩ := hI
  have hidle : Function.update G t .idle = G := by rw [← hG, Function.update_eq_self]
  by_cases hp : i ∈ s.pending
  · rw [if_pos hp]
    obtain ⟨u, r, hr, rfl, -⟩ :=
      (h.rings.mem i).mp (List.mem_append_left _ (List.mem_append_right _ hp))
    rw [(h.table.chain u r (View.req_of_sent hr)).readChain]
    exact ⟨.idle, ⟨q, d ++ [(r.head, r.b)], by rw [hidle]; exact h.complete hr hp⟩, rfl⟩
  · rw [if_neg hp]
    exact ⟨.idle, ⟨q, d, by rwa [hidle]⟩, rfl⟩

/-- The invariant holds when the driver has been initialised. -/
theorem inv_init : Inv (init ι κ β) (fun _ => .idle) [] [] where
  locked := ⟨fun _ => ⟨by rintro ⟨⟩, False.elim⟩, by rintro _ _ ⟨⟩⟩
  table := ⟨by rintro _ _ ⟨⟩, by rintro _ _ _ _ ⟨⟩, by rintro _ ⟨⟩, fun _ _ => rfl⟩
  rings := ⟨.nil (UInt16.toNat_lt _), .nil (UInt16.toNat_lt _), List.nodup_nil,
    fun i => ⟨by rintro ⟨⟩, by rintro ⟨_, _, ⟨⟩, _⟩⟩, by rintro _ _ ⟨⟩, by rintro _ _ (⟨⟨⟩⟩ | ⟨⟨⟩⟩),
    by rintro _ ⟨⟩, by rintro _ _ ⟨⟩⟩
  story := ⟨fun _ => rfl, by rintro _ _ ⟨⟩, by rintro _ _ ⟨⟩, rfl, replied_nil⟩

variable [DecidableEq β]

theorem runs_submit (b : β) (write : Bool) :
    Runs t (fun r v => v = .filled r ∧ r.b = b) (submit b write) (.ready b) := by
  refine safe_act_guarded fun s G hI hG => ?_
  obtain ⟨q, d, h⟩ := hI
  cases hlock : s.vdiskLock with
  | some u => trivial
  | none =>
    rcases alloc3Desc_cases s with ⟨i, j, k, s₁, halloc, htook⟩ | ⟨s₁, halloc, -⟩
    · rw [halloc]
      exact ⟨_, ⟨q, d, h.submit hG hlock htook⟩, rfl, rfl⟩
    · rw [halloc]
      trivial

theorem runs_virtioDiskRw (b : β) (write : Bool) :
    Runs t (fun _ v => v = .ready b) (virtioDiskRw b write) (.ready b) := by
  refine (runs_submit b write).bind ?_
  rintro r _ ⟨rfl, rfl⟩
  refine Safe.seq (runs_publish r) fun _ => ?_
  refine Safe.seq_eq (runs_firstTest r) ?_
  exact runs_await r

theorem runs_rws (b : β) (ops : List Bool) :
    Runs t (fun _ v => v = .ready b) (rws b ops) (.ready b) := by
  induction ops with
  | nil => rfl
  | cons write ops ih =>
    refine Safe.seq (runs_virtioDiskRw b write) fun _ => ?_
    exact ih

/-- One turn finds its entry, with the status 0 and a buffer. -/
theorem runs_intrTurn (n : ℕ) :
    Runs (β := β) t (fun more v => v = if more then .serving n else .idle) intrTurn
      (.serving (n + 1)) := by
  refine safe_act_guarded fun s G hI hG => ?_
  obtain ⟨q, d, h⟩ := hI
  have hempty : s.usedIdx = s.used.idx ↔ d = [] := by
    rw [← UInt16.toNat_inj, h.rings.used.eq_iff_nil (by decide), List.map_eq_nil_iff]
  by_cases heq : s.usedIdx = s.used.idx
  · rw [if_pos heq]
    exact ⟨_, ⟨q, d, h.leaveIntr hG⟩, rfl⟩
  · rw [if_neg heq]
    cases d with
    | nil => exact absurd (hempty.mpr rfl) heq
    | cons x d =>
      obtain ⟨i, b⟩ := x
      have hring : s.used.ring (Fin.ofNat num s.usedIdx.toNat) = id32 i :=
        (h.rings.used.pop (by decide)).1
      have hinfo : s.info i = ⟨some b, 0⟩ := h.rings.done (i, b) (.head _)
      simp only [hring, id32_toNat, descId_val, hinfo, ne_eq, not_true_eq_false, if_false]
      exact ⟨_, ⟨q, d, h.serve hG⟩, rfl⟩

/-- The loop of `virtio_disk_intr` comes to its end: what is on its way is fewer than the turns
that are left. -/
theorem runs_intrLoop (n : ℕ) :
    Runs (β := β) t (fun _ v => v = .idle) (intrLoop n) (.serving n) := by
  induction n with
  | zero =>
    refine safe_act_guarded fun s G hI hG => ?_
    obtain ⟨q, d, h⟩ := hI
    exact absurd (h.rings.serving t 0 hG) (Nat.not_lt_zero _)
  | succ n ih =>
    refine (runs_intrTurn n).bind ?_
    rintro more _ rfl
    cases more with
    | false => rfl
    | true => exact ih

theorem runs_virtioDiskIntr : Runs (β := β) t (fun _ v => v = .idle) virtioDiskIntr .idle := by
  refine runs_enterIntr.bind ?_
  rintro _ _ rfl
  exact runs_intrLoop (num + 1)

theorem runs_acquiresleep (b : β) (blockno : UInt32) :
    Runs t (fun _ v => v = .ready b) (acquiresleep b blockno) .idle := by
  refine safe_act_guarded fun s G hI hG => ?_
  obtain ⟨q, d, h⟩ := hI
  cases hlock : (s.buf b).lock with
  | some u => trivial
  | none =>
    exact ⟨_, ⟨q, d, h.acquiresleep hG hlock blockno⟩, rfl⟩

theorem runs_releasesleep (b : β) : Runs t (fun _ v => v = .idle) (releasesleep b) (.ready b) := by
  refine safe_act_guarded fun s G hI hG => ?_
  obtain ⟨q, d, h⟩ := hI
  exact ⟨_, ⟨q, d, h.releasesleep hG⟩, rfl⟩

theorem runs_call (c : Call β) : Runs t (fun _ v => v = .idle) c.code .idle := by
  cases c with
  | use b blockno ops =>
    refine Safe.seq (runs_acquiresleep b blockno) fun _ => ?_
    refine Safe.seq (runs_rws b ops) fun _ => ?_
    exact runs_releasesleep b
  | intr => exact runs_virtioDiskIntr
  | fetch => exact runs_fetch
  | complete i => exact runs_complete i

/-- **The disk request protocol.** In every state that processes, CPUs and the device reach:
every `virtio_disk_rw` that has returned did so after the device completed its own request; the
unfinished requests have disjoint chains of three descriptors each, and the other descriptors are
free; no panic is ahead, of `free_desc` or otherwise; and what `virtio_disk_intr` has found in
`info` so far are the heads and buffers that the device completed, in its order. A failed
`alloc3_desc` leaves the free descriptors as they were, in whatever state it is called. -/
theorem disk_request_protocol {t₀ : Agent ι κ}
    {cfg : Config (Agent ι κ) (Chan β) Halt (State ι κ β)}
    (hr : Reachable (system ι κ β) ((system ι κ β).powerOn (init ι κ β) t₀) cfg) :
    (∀ later t r earlier, cfg.shared.hist = later ++ .returned t r :: earlier →
      Answered t r earlier) ∧
    (∀ t r, unfinished t cfg.shared.hist = some r →
      chainFrom cfg.shared.desc num r.head = r.ids ∧ r.ids.Nodup) ∧
    (∀ t u r r', unfinished t cfg.shared.hist = some r → unfinished u cfg.shared.hist = some r' →
      t ≠ u → r.ids.Disjoint r'.ids) ∧
    (∀ x, cfg.shared.free x = true ↔
      ∀ t r, unfinished t cfg.shared.hist = some r → x ∉ r.ids) ∧
    (∀ t e, ¬ HaltsWith cfg t e) ∧
    (serves cfg.shared.hist <+: completions cfg.shared.hist) ∧
    ∀ s s' : State ι κ β, alloc3Desc s = .ok (none, s') → s'.free = s.free := by
  have hstart : Ok (init ι κ β) fun _ => .idle := ⟨[], [], inv_init⟩
  have hcalls : ∀ (t : Agent ι κ) (c : Call β) (s : State ι κ β), (system ι κ β).may t c s →
      ∀ v, v = .idle → Runs t (fun _ w => w = .idle) c.code v := by
    rintro t c s - _ rfl
    exact runs_call c
  obtain ⟨⟨G, q, d, h⟩, hhalt⟩ := @guarded_of_reachable _ _ _ _ _ _ cfg _ Ok (system ι κ β)
    (fun v => v = .idle) _ _ _ id hcalls _ hstart (fun _ => rfl) rfl hr
  have hun : ∀ t r, unfinished t cfg.shared.hist = some r → (G t).req = some r := by
    intro t r hu
    rw [← h.story.unfinished t, hu]
  refine ⟨h.story.replied, fun t r hu => ?_, fun t u r r' hu hu' => ?_, fun x => ⟨?_, ?_⟩, hhalt,
    ⟨d, h.story.served.symm⟩, fun s s' hfail => ?_⟩
  · have hchain := (h.table.chain t r (hun t r hu)).toLinked
    refine ⟨hchain.chainFrom, ?_⟩
    simp [Request.ids, hchain.head_ne_data, hchain.head_ne_status, hchain.data_ne_status]
  · exact h.table.apart t u r r' (hun t r hu) (hun u r' hu')
  · intro hx t r hu hmem
    rw [(h.table.chain t r (hun t r hu)).taken x hmem] at hx
    cases hx
  · intro hx
    by_contra hfree
    obtain ⟨t, r, hr, hmem⟩ := h.table.owned x (Bool.eq_false_iff.mpr hfree)
    exact hx t r ((h.story.unfinished t).trans hr) hmem
  · rcases alloc3Desc_cases s with ⟨i, j, k, s₁, h₁, -⟩ | ⟨s₁, h₁, hfree, -⟩
    · rw [h₁] at hfail
      cases hfail
    · rw [h₁] at hfail
      cases hfail
      exact hfree

/-- One process, one CPU and two buffers. -/
abbrev oneProcess := system Unit Unit Bool

instance decidableMay : ∀ t c s, Decidable (oneProcess.may t c s) :=
  fun t c _ => inferInstanceAs (Decidable (Call.by c t = true))

/-- A process reads block 5, the device completes the request and the CPU takes the interrupt. -/
def oneRead : List (Move (Agent Unit Unit) (Call Bool)) :=
  [.call (.proc ()) (.use false 5 [false]), .act (.proc ()), .act (.proc ()), .act (.proc ()),
    .act (.proc ()), .call .device .fetch, .act .device, .call .device (.complete 0),
    .act .device, .call (.cpu ()) .intr, .act (.cpu ()), .act (.cpu ()), .act (.cpu ()),
    .act (.proc ())]

theorem oneRead_returned :
    ((oneProcess.play oneRead (oneProcess.powerOn (init Unit Unit Bool) .device)).any
      fun cfg => cfg.shared.hist.head? = some
        (.returned (.proc ()) ⟨0, 1, 2, false, false, 10⟩)) = true := by
  decide +kernel

/-- The protocol, after that read. -/
theorem disk_request_protocol_oneRead :
    ∃ cfg earlier, Reachable oneProcess (oneProcess.powerOn (init Unit Unit Bool) .device) cfg ∧
      cfg.shared.hist = .returned (.proc ()) ⟨0, 1, 2, false, false, 10⟩ :: earlier ∧
      Answered (.proc ()) ⟨0, 1, 2, false, false, 10⟩ earlier := by
  obtain ⟨cfg, hr, htest⟩ := exists_of_play _ oneRead_returned
  obtain ⟨earlier, hhist⟩ := List.head?_eq_some_iff.mp htest
  exact ⟨cfg, earlier, hr, hhist, (disk_request_protocol hr).1 [] _ _ _ hhist⟩

end Virtio

end TrinityXv6
