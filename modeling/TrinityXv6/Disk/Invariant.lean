import Mathlib.Data.Fintype.Card
import TrinityXv6.Disk.Chain
import TrinityXv6.Lib.Window

/-!
# The invariant of the disk driver

Descriptors, the avail ring, the used ring and the table `info` are written by different parties at
different times. The invariant says what a request looks like in them at every stage: filled in,
published, read by the device, completed, and served by the interrupt handler.

It is in four parts, because most steps touch only one or two of them: the locks, the descriptors,
the rings, and what has happened so far.
-/

namespace TrinityXv6

namespace Virtio

open Threads Command
open Function (update update_self update_of_ne)

variable {ι κ β τ : Type} {r : Request β}

/-! ## What has happened to a request -/

/-- The events after a submission that would end or confuse it: another request of the same
process or with the same head, a completion, or a return. -/
def Event.Concerns (t : τ) (i : DescId) : Event τ β → Prop
  | .submitted u r => u = t ∨ r.head = i
  | .completed j _ _ => j = i
  | .served _ _ => False
  | .returned u _ => u = t

/-- The last thing that happened to the request was its submission. -/
def Asked (t : τ) (r : Request β) (h : List (Event τ β)) : Prop :=
  ∃ since before, h = since ++ .submitted t r :: before ∧ ∀ e ∈ since, ¬ e.Concerns t r.head

/-- The request was submitted, and the device completed it since, once. -/
def Answered (t : τ) (r : Request β) (h : List (Event τ β)) : Prop :=
  ∃ after since before,
    h = after ++ .completed r.head (blkReq r) r.b :: (since ++ .submitted t r :: before) ∧
      ∀ e ∈ after ++ since, ¬ e.Concerns t r.head

/-- Every return came after the completion of what was asked for. -/
def Replied (h : List (Event τ β)) : Prop :=
  ∀ later t r earlier, h = later ++ .returned t r :: earlier → Answered t r earlier

/-- The request of a process that has not returned. -/
def unfinished [DecidableEq τ] (t : τ) : List (Event τ β) → Option (Request β)
  | [] => none
  | .submitted u r :: h => if u = t then some r else unfinished t h
  | .returned u _ :: h => if u = t then none else unfinished t h
  | .completed .. :: h => unfinished t h
  | .served .. :: h => unfinished t h

/-- The heads and buffers of the completed requests, in order. -/
def completions : List (Event τ β) → List (DescId × β)
  | [] => []
  | .completed i _ b :: h => completions h ++ [(i, b)]
  | .submitted .. :: h => completions h
  | .served .. :: h => completions h
  | .returned .. :: h => completions h

/-- What `virtio_disk_intr` found, in order. -/
def serves : List (Event τ β) → List (DescId × β)
  | [] => []
  | .served i b :: h => serves h ++ [(i, b)]
  | .submitted .. :: h => serves h
  | .completed .. :: h => serves h
  | .returned .. :: h => serves h

section History

variable {t : τ} {r : Request β} {h : List (Event τ β)} {e : Event τ β}

theorem asked_submitted : Asked t r (.submitted t r :: h) :=
  ⟨[], h, rfl, by rintro e ⟨⟩⟩

theorem Asked.cons (hr : Asked t r h) (he : ¬ e.Concerns t r.head) : Asked t r (e :: h) := by
  obtain ⟨since, before, rfl, hs⟩ := hr
  refine ⟨e :: since, before, rfl, fun e' he' => ?_⟩
  rcases List.mem_cons.mp he' with rfl | he'
  · exact he
  · exact hs e' he'

theorem Asked.completed (hr : Asked t r h) :
    Answered t r (.completed r.head (blkReq r) r.b :: h) := by
  obtain ⟨since, before, rfl, hs⟩ := hr
  exact ⟨[], since, before, rfl, hs⟩

theorem Answered.cons (hr : Answered t r h) (he : ¬ e.Concerns t r.head) :
    Answered t r (e :: h) := by
  obtain ⟨after, since, before, rfl, hs⟩ := hr
  refine ⟨e :: after, since, before, rfl, fun e' he' => ?_⟩
  rcases List.mem_cons.mp he' with rfl | he'
  · exact he
  · exact hs e' he'

theorem replied_nil : Replied ([] : List (Event τ β)) := by
  intro later t r earlier heq
  cases later <;> cases heq

theorem Replied.cons (hr : Replied h) (he : ∀ t r, e = .returned t r → Answered t r h) :
    Replied (e :: h) := by
  intro later t r earlier heq
  cases later with
  | nil =>
    obtain ⟨rfl, rfl⟩ := List.cons.inj heq
    exact he t r rfl
  | cons e' later => exact hr later t r earlier (List.cons.inj heq).2

end History

/-! ## The invariant -/

/-- Where an agent is. -/
inductive View (β : Type) where
  | idle
  /-- It holds the sleeplock of a buffer. -/
  | ready (b : β)
  /-- It has filled in a request and holds `vdisk_lock`. -/
  | filled (r : Request β)
  /-- It has published the request and holds `vdisk_lock`. -/
  | published (r : Request β)
  /-- It waits for the buffer, or will. -/
  | waiting (r : Request β)
  /-- It is in the loop of `virtio_disk_intr`, for at most so many turns. -/
  | serving (n : ℕ)

/-- The request an agent has not finished. -/
def View.req : View β → Option (Request β)
  | .filled r => some r
  | .published r => some r
  | .waiting r => some r
  | _ => none

/-- The request, if it has been published. -/
def View.sent : View β → Option (Request β)
  | .published r => some r
  | .waiting r => some r
  | _ => none

/-- The buffer whose sleeplock an agent holds. -/
def View.buf : View β → Option β
  | .ready b => some b
  | .filled r => some r.b
  | .published r => some r.b
  | .waiting r => some r.b
  | _ => none

/-- Whether an agent holds `vdisk_lock`. -/
def View.Locks : View β → Prop
  | .filled _ => True
  | .published _ => True
  | .serving _ => True
  | _ => False

theorem View.req_of_sent {v : View β} (h : v.sent = some r) : v.req = some r := by
  cases v <;> first | exact h | cases h

theorem View.buf_of_req {v : View β} (h : v.req = some r) : v.buf = some r.b := by
  cases v <;> cases h <;> rfl

/-- The views of all agents. -/
abbrev Views (ι κ β : Type) := Agent ι κ → View β

/-- The locks are with those who took them. -/
structure Locked (s : State ι κ β) (G : Views ι κ β) : Prop where
  vdisk : ∀ t, s.vdiskLock = some t ↔ (G t).Locks
  buf : ∀ t b, (G t).buf = some b → (s.buf b).lock = some t

/-- Every descriptor is free or belongs to one request. -/
structure Table (s : State ι κ β) (G : Views ι κ β) : Prop where
  chain : ∀ t r, (G t).req = some r → Chain s r
  apart : ∀ t u r r', (G t).req = some r → (G u).req = some r' → t ≠ u → r.ids.Disjoint r'.ids
  owned : ∀ x, s.free x = false → ∃ t r, (G t).req = some r ∧ x ∈ r.ids
  zero : ∀ x, s.free x = true → s.desc x = Desc.zero

/-- The heads in the avail ring, those the device has read, and those in the used ring. -/
def heads (s : State ι κ β) (q : List DescId) (d : List (DescId × β)) : List DescId :=
  q ++ s.pending ++ d.map Prod.fst

/-- The rings hold the requests that have been published and not served. -/
structure Rings (s : State ι κ β) (G : Views ι κ β) (q : List DescId) (d : List (DescId × β)) :
    Prop where
  avail : Window 65536 s.avail.ring s.seen.toNat s.avail.idx.toNat (q.map id16)
  used : Window 65536 s.used.ring s.usedIdx.toNat s.used.idx.toNat (d.map fun x => id32 x.1)
  nodup : (heads s q d).Nodup
  mem : ∀ i, i ∈ heads s q d ↔
    ∃ t r, (G t).sent = some r ∧ r.head = i ∧ (s.buf r.b).disk = true
  filled : ∀ t r, G t = .filled r →
    s.avail.ring (Fin.ofNat num s.avail.idx.toNat) = id16 r.head
  disk : ∀ t r, G t = .filled r ∨ G t = .published r → (s.buf r.b).disk = true
  done : ∀ x ∈ d, s.info x.1 = ⟨some x.2, 0⟩
  serving : ∀ t n, G t = .serving n → (heads s q d).length < n

variable [DecidableEq ι] [DecidableEq κ]

/-- What has happened agrees with the tables. -/
structure Story (s : State ι κ β) (G : Views ι κ β) (d : List (DescId × β)) : Prop where
  unfinished : ∀ t, unfinished t s.hist = (G t).req
  asked : ∀ t r, (G t).req = some r → (s.buf r.b).disk = true → r.head ∉ d.map Prod.fst →
    Asked t r s.hist
  answered : ∀ t r, (G t).req = some r →
    ((s.buf r.b).disk = true → r.head ∈ d.map Prod.fst) → Answered t r s.hist
  served : completions s.hist = serves s.hist ++ d
  replied : Replied s.hist

/-- **The invariant.** -/
structure Inv (s : State ι κ β) (G : Views ι κ β) (q : List DescId) (d : List (DescId × β)) :
    Prop where
  locked : Locked s G
  table : Table s G
  rings : Rings s G q d
  story : Story s G d

variable {s : State ι κ β} {G : Views ι κ β} {q : List DescId} {d : List (DescId × β)}
  {t : Agent ι κ} {r : Request β} {b : β} {n : ℕ}

/-! ## What a step leaves alone -/

section Frame

variable {s' : State ι κ β} {v : View β} {u : Agent ι κ} {G' : Views ι κ β}

section

omit [DecidableEq ι] [DecidableEq κ]

/-- A request is in one agent's hands. -/
theorem Table.eq_of_mem (h : Table s G) {r' : Request β} {x : DescId} (hr : (G t).req = some r)
    (hr' : (G u).req = some r') (hx : x ∈ r.ids) (hx' : x ∈ r'.ids) : u = t ∧ r' = r := by
  have htu : t = u := by
    by_contra hne
    exact h.apart t u r r' hr hr' hne hx hx'
  subst htu
  exact ⟨rfl, Option.some.inj (hr'.symm.trans hr)⟩

theorem Request.head_mem_ids (r : Request β) : r.head ∈ r.ids := (.head _)

/-- A buffer is in one agent's hands. -/
theorem Locked.eq_of_buf (h : Locked s G) (hb : (G t).buf = some b) (hb' : (G u).buf = some b) :
    u = t :=
  Option.some.inj ((h.buf u b hb').symm.trans (h.buf t b hb))

/-- `vdisk_lock` is in one agent's hands. -/
theorem Locked.eq_of_locks (h : Locked s G) (ht : (G t).Locks) (hu : (G u).Locks) : u = t :=
  Option.some.inj (((h.vdisk u).mpr hu).symm.trans ((h.vdisk t).mpr ht))

end

/-- Whoever has the lock once `t` has acted is `t`. -/
theorem eq_of_update_locks (hother : ∀ u, u ≠ t → ¬ (G u).Locks) {v' : View β}
    (hu : update G t v u = v') (hl : v'.Locks) : u = t ∧ v' = v := by
  subst hu
  by_cases hut : u = t
  · subst hut
    exact ⟨rfl, update_self ..⟩
  · rw [update_of_ne hut] at hl
    exact absurd hl (hother u hut)

section

variable (h : Locked s G) (hbuf : ∀ x, (s'.buf x).lock = (s.buf x).lock)
include h hbuf

theorem Locked.keep (hlock : s'.vdiskLock = s.vdiskLock) (hv : v.buf = (G t).buf)
    (hl : v.Locks ↔ (G t).Locks) : Locked s' (update G t v) where
  vdisk u := by
    rw [hlock, h.vdisk u, view_update View.Locks (propext hl)]
  buf u x hx := by
    rw [view_update View.buf hv] at hx
    rw [hbuf, h.buf u x hx]

theorem Locked.take
    (hnone : s.vdiskLock = none) (hlock : s'.vdiskLock = some t) (hv : v.buf = (G t).buf)
    (hl : v.Locks) : Locked s' (update G t v) where
  vdisk u := by
    rw [hlock]
    by_cases hu : u = t
    · subst hu
      rw [update_self]
      exact iff_of_true rfl hl
    · rw [update_of_ne hu, ← h.vdisk u, hnone]
      refine iff_of_false (fun heq => hu (Option.some.inj heq).symm) ?_
      rintro ⟨⟩
  buf u x hx := by
    rw [view_update View.buf hv] at hx
    rw [hbuf, h.buf u x hx]

theorem Locked.drop (ht : (G t).Locks) (hlock : s'.vdiskLock = none) (hv : v.buf = (G t).buf)
    (hl : ¬ v.Locks) : Locked s' (update G t v) where
  vdisk u := by
    rw [hlock]
    refine iff_of_false (by rintro ⟨⟩) fun hlu => ?_
    by_cases hu : u = t
    · subst hu
      rw [update_self] at hlu
      exact hl hlu
    · rw [update_of_ne hu] at hlu
      exact hu (h.eq_of_locks ht hlu)
  buf u x hx := by
    rw [view_update View.buf hv] at hx
    rw [hbuf, h.buf u x hx]

end

section

omit [DecidableEq ι] [DecidableEq κ]

theorem Table.congr (h : Table s G) (hreq : ∀ u, (G' u).req = (G u).req)
    (hfree : s'.free = s.free) (hdesc : s'.desc = s.desc) (hops : s'.ops = s.ops)
    (hinfo : ∀ i, (s'.info i).b = (s.info i).b) : Table s' G' where
  chain u r' hr' := by
    rw [hreq] at hr'
    exact (h.chain u r' hr').congr (fun _ _ => by rw [hfree]) (fun _ _ => by rw [hdesc])
      (by rw [hops]) (hinfo _)
  apart u w r₁ r₂ h₁ h₂ := h.apart u w r₁ r₂ ((hreq u).symm.trans h₁) ((hreq w).symm.trans h₂)
  owned x hx := by
    rw [hfree] at hx
    obtain ⟨u, r', hr', hmem⟩ := h.owned x hx
    exact ⟨u, r', (hreq u).trans hr', hmem⟩
  zero x hx := by
    rw [hfree] at hx
    rw [hdesc, h.zero x hx]

/-- A head that is on its way belongs to a request that was sent. -/
theorem Rings.notMem_heads (h : Rings s G q d) (htab : Table s G) (hr : (G t).req = some r)
    (hns : (G t).sent = some r → (s.buf r.b).disk = false) : r.head ∉ heads s q d := by
  intro hmem
  obtain ⟨u, r', hsent, hhead, hdisk⟩ := (h.mem r.head).mp hmem
  obtain ⟨rfl, rfl⟩ := htab.eq_of_mem hr (View.req_of_sent hsent) r.head_mem_ids
    (hhead ▸ r'.head_mem_ids)
  rw [hns hsent] at hdisk
  cases hdisk

/-- A descriptor that is free is not the head of a request that is on its way. -/
theorem Rings.notMem_of_free (h : Rings s G q d) (htab : Table s G) {i : DescId}
    (hfree : s.free i = true) : i ∉ heads s q d := by
  intro hmem
  obtain ⟨u, r', hr', rfl, -⟩ := (h.mem i).mp hmem
  have htaken := (htab.chain u r' (View.req_of_sent hr')).taken _ r'.head_mem_ids
  rw [hfree] at htaken
  cases htaken

end

theorem idx_succ (x : UInt16) : (x + 1).toNat = (x.toNat + 1) % 65536 :=
  UInt16.toNat_add x 1

theorem length_lt_of_notMem {i : DescId} {l : List DescId} (hl : l.Nodup) (hi : i ∉ l) :
    l.length < num := by
  have hle : (i :: l).length ≤ Fintype.card DescId :=
    List.Nodup.length_le_card (List.nodup_cons.mpr ⟨hi, hl⟩)
  rw [Fintype.card_fin, List.length_cons] at hle
  exact hle

/-- The rings, when an agent's view changes to one that is not in the middle of publishing. -/
theorem Rings.act (h : Rings s G q d) (havail : s'.avail = s.avail) (hseen : s'.seen = s.seen)
    (hused : s'.used = s.used) (hidx : s'.usedIdx = s.usedIdx) (hpend : s'.pending = s.pending)
    (hinfo : ∀ x ∈ d, s'.info x.1 = s.info x.1) (hdisk : ∀ x, (s'.buf x).disk = (s.buf x).disk)
    (hsent : v.sent = (G t).sent ∨
      v.sent = none ∧ ∀ r, (G t).sent = some r → (s.buf r.b).disk = false)
    (hfilled : ∀ r, v ≠ .filled r) (hpub : ∀ r, v ≠ .published r)
    (hserv : ∀ n, v = .serving n → (heads s q d).length < n) : Rings s' (update G t v) q d := by
  have hheads : heads s' q d = heads s q d := by rw [heads, heads, hpend]
  refine ⟨?_, ?_, ?_, fun i => ?_, fun u r' hu => ?_, fun u r' hu => ?_, fun x hx => ?_,
    fun u n hu => ?_⟩
  · rw [havail, hseen]
    exact h.avail
  · rw [hused, hidx]
    exact h.used
  · rw [hheads]
    exact h.nodup
  · rw [hheads, h.mem i]
    constructor
    · rintro ⟨u, r', hr', hi, hd⟩
      have hu : (update G t v u).sent = some r' := by
        rcases hsent with hsent | ⟨-, hoff⟩
        · rw [view_update View.sent hsent, hr']
        · by_cases hut : u = t
          · subst hut
            rw [hoff r' hr'] at hd
            cases hd
          · rw [update_of_ne hut, hr']
      exact ⟨u, r', hu, hi, (hdisk _).trans hd⟩
    · rintro ⟨u, r', hr', hi, hd⟩
      rw [hdisk] at hd
      refine ⟨u, r', ?_, hi, hd⟩
      rcases hsent with hsent | ⟨hnone, -⟩
      · rw [← view_update View.sent hsent, hr']
      · rcases update_cases hr' with ⟨-, hnew⟩ | ⟨-, hr'⟩
        · cases hnone.symm.trans hnew
        · exact hr'
  · rcases update_cases (f := id) hu with ⟨-, hnew⟩ | ⟨-, hu⟩
    · exact absurd hnew (hfilled r')
    · rw [havail, h.filled u r' hu]
  · by_cases hut : u = t
    · subst hut
      rw [update_self] at hu
      exact hu.elim (fun hu => absurd hu (hfilled r')) fun hu => absurd hu (hpub r')
    · rw [update_of_ne hut] at hu
      rw [hdisk, h.disk u r' hu]
  · rw [hinfo x hx, h.done x hx]
  · rw [hheads]
    rcases update_cases (f := id) hu with ⟨-, hnew⟩ | ⟨-, hu⟩
    · exact hserv n hnew
    · exact h.serving u n hu

/-- Nothing that is on record has happened. -/
theorem Story.congr (h : Story s G d) (hreq : ∀ u, (G' u).req = (G u).req)
    (hhist : s'.hist = s.hist) (hdisk : ∀ x, (s'.buf x).disk = (s.buf x).disk) : Story s' G' d where
  unfinished u := by rw [hhist, hreq, h.unfinished]
  asked u r' hr' hd hn := by
    rw [hreq] at hr'
    rw [hdisk] at hd
    rw [hhist]
    exact h.asked u r' hr' hd hn
  answered u r' hr' hd := by
    rw [hreq] at hr'
    rw [hdisk] at hd
    rw [hhist]
    exact h.answered u r' hr' hd
  served := by rw [hhist, h.served]
  replied := by
    rw [hhist]
    exact h.replied

/-- A step that takes or gives up a lock, and nothing else. -/
theorem Inv.act (h : Inv s G q d) {lk : Option (Agent ι κ)} {buf : β → Buf (Agent ι κ)}
    (hl : Locked { s with vdiskLock := lk, buf := buf } (update G t v))
    (hdisk : ∀ x, (buf x).disk = (s.buf x).disk) (hreq : v.req = (G t).req)
    (hsent : v.sent = (G t).sent) (hfilled : ∀ r, v ≠ .filled r) (hpub : ∀ r, v ≠ .published r)
    (hserv : ∀ n, v = .serving n → (heads s q d).length < n) :
    Inv { s with vdiskLock := lk, buf := buf } (update G t v) q d :=
  ⟨hl, h.table.congr (view_update View.req hreq) rfl rfl rfl fun _ => rfl,
    h.rings.act rfl rfl rfl rfl rfl (fun _ _ => rfl) hdisk (.inl hsent) hfilled hpub hserv,
    h.story.congr (view_update View.req hreq) rfl hdisk⟩

end Frame

end Virtio

end TrinityXv6
