import TrinityXv6.Disk.Invariant

/-!
# The steps of the disk driver and of the device

Each step keeps the invariant.
-/

namespace TrinityXv6

namespace Virtio

open Threads Command
open List
open Function (update update_self update_of_ne)

variable {ι κ β : Type} [DecidableEq ι] [DecidableEq κ] {s : State ι κ β} {G : Views ι κ β}
  {q : List DescId} {d : List (DescId × β)} {t : Agent ι κ} {r : Request β} {b : β} {n : ℕ}

/-! ## The process -/

variable {x : DescId} {s₁ : State ι κ β}

omit [DecidableEq ι] [DecidableEq κ] in
theorem Took.ne_of_taken (h : Took s s₁ r.head r.data r.status) (hx : s.free x = false) :
    x ≠ r.head ∧ x ≠ r.data ∧ x ≠ r.status := by
  refine ⟨?_, ?_, ?_⟩ <;> rintro rfl
  · rw [h.free₁] at hx
    cases hx
  · rw [h.free₂] at hx
    cases hx
  · rw [h.free₃] at hx
    cases hx

/-- The descriptors of a request, once filled in. -/
theorem Table.submit [DecidableEq β] (h : Table s G) (hG : (G t).req = none)
    (htook : Took s s₁ r.head r.data r.status) (lk : Option (Agent ι κ)) :
    Table { fill t r s₁ with vdiskLock := lk } (update G t (.filled r)) := by
  obtain ⟨hne₁₂, hne₁₃, hne₂₃, -, -, -, rfl⟩ := id htook
  have hother : ∀ u r', (update G t (View.filled r) u).req = some r' → u ≠ t →
      (G u).req = some r' := by
    intro u r' hr' hu
    rwa [update_of_ne hu] at hr'
  have hself : ∀ r', (update G t (View.filled r) t).req = some r' → r' = r := by
    intro r' hr'
    rw [update_self] at hr'
    exact (Option.some.inj hr').symm
  have hapart : ∀ u r' x, (G u).req = some r' → x ∈ r'.ids → x ∉ r.ids := by
    intro u r' x hr' hx hmem
    obtain ⟨h₁, h₂, h₃⟩ := htook.ne_of_taken ((h.chain u r' hr').taken x hx)
    rcases Request.mem_ids.mp hmem with heq | heq | heq
    · exact h₁ heq
    · exact h₂ heq
    · exact h₃ heq
  refine ⟨fun u r' hr' => ?_, fun u w r₁ r₂ h₁ h₂ huw => ?_, fun x hx => ?_, fun x hx => ?_⟩
  · by_cases hu : u = t
    · subst hu
      obtain rfl := hself r' hr'
      refine ⟨⟨hne₁₂, hne₁₃, hne₂₃, fun x hx => ?_, ?_, ?_, ?_⟩, ?_, ?_⟩
      · rcases Request.mem_ids.mp hx with rfl | rfl | rfl <;>
          simp [fill, taking, Function.update_apply]
      · simp [fill, hne₁₂, hne₁₃]
      · simp [fill, hne₂₃]
      · simp [fill]
      · simp [fill]
      · simp [fill]
    · have hr := hother u r' hr' hu
      have hch := h.chain u r' hr
      have hne : ∀ x ∈ r'.ids, x ≠ r.head ∧ x ≠ r.data ∧ x ≠ r.status := fun x hx =>
        htook.ne_of_taken (hch.taken x hx)
      have hhead := (hne _ r'.head_mem_ids).1
      refine hch.congr (fun x hx => ?_) (fun x hx => ?_) ?_ ?_
      · obtain ⟨h₁, h₂, h₃⟩ := hne x hx
        simp [fill, taking, h₁, h₂, h₃]
      · obtain ⟨h₁, h₂, h₃⟩ := hne x hx
        simp [fill, taking, h₁, h₂, h₃]
      · simp [fill, taking, hhead]
      · simp [fill, taking, hhead]
  · intro x hx₁ hx₂
    by_cases hu : u = t
    · subst hu
      obtain rfl := hself r₁ h₁
      exact hapart w r₂ x (hother w r₂ h₂ huw.symm) hx₂ hx₁
    · by_cases hw : w = t
      · subst hw
        obtain rfl := hself r₂ h₂
        exact hapart u r₁ x (hother u r₁ h₁ hu) hx₁ hx₂
      · exact h.apart u w r₁ r₂ (hother u r₁ h₁ hu) (hother w r₂ h₂ hw) huw hx₁ hx₂
  · by_cases hmem : x ∈ r.ids
    · exact ⟨t, r, by rw [update_self]; rfl, hmem⟩
    · rw [Request.mem_ids, not_or, not_or] at hmem
      have hx' : s.free x = false := by
        simpa [fill, taking, hmem.1, hmem.2.1, hmem.2.2] using hx
      obtain ⟨u, r', hr', hxr⟩ := h.owned x hx'
      have hu : u ≠ t := by
        rintro rfl
        rw [hG] at hr'
        cases hr'
      exact ⟨u, r', by rwa [update_of_ne hu], hxr⟩
  · have hne : x ≠ r.head ∧ x ≠ r.data ∧ x ≠ r.status := by
      refine ⟨?_, ?_, ?_⟩ <;> rintro rfl <;>
        simp [fill, taking, Function.update_apply] at hx
    have hx' : s.free x = true := by
      simpa [fill, taking, hne.1, hne.2.1, hne.2.2] using hx
    simpa [fill, taking, hne.1, hne.2.1, hne.2.2] using h.zero x hx'

omit [DecidableEq ι] [DecidableEq κ] in
theorem Locked.not_locks (h : Locked s G) (hlock : s.vdiskLock = none) (u : Agent ι κ) :
    ¬ (G u).Locks := by
  intro hu
  rw [← h.vdisk u, hlock] at hu
  cases hu

omit [DecidableEq ι] [DecidableEq κ] in
/-- The other requests are for other buffers. -/
theorem Locked.ne_of_req (h : Locked s G) (hb : (G t).buf = some b) {u : Agent ι κ}
    {r' : Request β} (hr' : (G u).req = some r') (hu : u ≠ t) : r'.b ≠ b := by
  intro heq
  exact hu (h.eq_of_buf hb (heq ▸ View.buf_of_req hr'))

/-- The head that has been filled in is in the avail ring, but not among the published ones. -/
theorem Rings.submit [DecidableEq β] (h : Rings s G q d) (hl : Locked s G) (htab : Table s G)
    (hG : G t = .ready r.b) (hlock : s.vdiskLock = none)
    (htook : Took s s₁ r.head r.data r.status) :
    Rings { fill t r s₁ with vdiskLock := some t } (update G t (.filled r)) q d := by
  obtain ⟨-, -, -, hfree, -, -, rfl⟩ := htook
  have hbuf : (G t).buf = some r.b := by rw [hG]; rfl
  have hsent : ∀ u, (update G t (View.filled r) u).sent = (G u).sent :=
    view_update View.sent (by rw [hG]; rfl)
  have hdisk : ∀ u r', (G u).sent = some r' →
      (update s.buf r.b { s.buf r.b with disk := true } r'.b).disk =
        (s.buf r'.b).disk := by
    intro u r' hr'
    have hu : u ≠ t := by
      rintro rfl
      rw [hG] at hr'
      cases hr'
    rw [update_of_ne (hl.ne_of_req hbuf (View.req_of_sent hr') hu)]
  have hhead := h.notMem_of_free htab hfree
  -- nobody else is in the middle of publishing
  have hnone : ∀ u, u ≠ t → ¬ (G u).Locks := fun u _ => hl.not_locks hlock u
  refine ⟨?_, h.used, h.nodup, fun i => ?_, fun u r' hu => ?_, fun u r' hu => ?_, fun x hx => ?_,
    fun u n hu => ?_⟩
  · refine h.avail.write (by decide) ?_ (id16 r.head)
    have := length_lt_of_notMem h.nodup hhead
    simp only [heads, length_append, length_map] at this ⊢
    omega
  · refine (h.mem i).trans ?_
    constructor
    · rintro ⟨u, r', hr', hi, hd⟩
      exact ⟨u, r', (hsent u).trans hr', hi, (hdisk u r' hr').trans hd⟩
    · rintro ⟨u, r', hr', hi, hd⟩
      rw [hsent] at hr'
      exact ⟨u, r', hr', hi, (hdisk u r' hr').symm.trans hd⟩
  · obtain ⟨rfl, heq⟩ := eq_of_update_locks hnone hu trivial
    cases heq
    exact update_self ..
  · rcases hu with hu | hu
    · obtain ⟨rfl, heq⟩ := eq_of_update_locks hnone hu trivial
      cases heq
      simp [fill]
    · obtain ⟨-, heq⟩ := eq_of_update_locks hnone hu trivial
      cases heq
  · have hne : x.1 ≠ r.head := by
      intro heq
      exact hhead (heq ▸ mem_append_right _ (mem_map_of_mem hx))
    exact (update_of_ne hne ..).trans (h.done x hx)
  · obtain ⟨-, heq⟩ := eq_of_update_locks hnone hu trivial
    cases heq

theorem Story.submit [DecidableEq β] (h : Story s G d) (hl : Locked s G) (htab : Table s G)
    (hG : G t = .ready r.b) (htook : Took s s₁ r.head r.data r.status)
    (hd : r.head ∉ d.map Prod.fst) :
    Story { fill t r s₁ with vdiskLock := some t } (update G t (.filled r)) d := by
  obtain ⟨-, -, -, hfree, -, -, rfl⟩ := htook
  have hbuf : (G t).buf = some r.b := by rw [hG]; rfl
  -- the other requests have other processes, heads and buffers
  have hother : ∀ {u r'}, (update G t (View.filled r) u).req = some r' → u ≠ t →
      (G u).req = some r' ∧ ¬ (Event.submitted t r).Concerns u r'.head ∧
        (update s.buf r.b { s.buf r.b with disk := true } r'.b) = s.buf r'.b := by
    intro u r' hr' hu
    rw [update_of_ne hu] at hr'
    refine ⟨hr', ?_, update_of_ne (hl.ne_of_req hbuf hr' hu) ..⟩
    rintro (rfl | hhead)
    · exact hu rfl
    · have htaken := (htab.chain u r' hr').taken _ r'.head_mem_ids
      rw [← hhead, hfree] at htaken
      cases htaken
  have hself : ∀ {r'}, (update G t (View.filled r) t).req = some r' → r' = r := by
    intro r' hr'
    rw [update_self] at hr'
    exact (Option.some.inj hr').symm
  refine ⟨fun u => ?_, fun u r' hr' hdisk hn => ?_, fun u r' hr' hdone => ?_, h.served,
    h.replied.cons (by rintro _ _ ⟨⟩)⟩
  · show (if t = u then some r else Virtio.unfinished u s.hist) = _
    by_cases hut : u = t
    · subst hut
      rw [update_self, if_pos rfl]
      rfl
    · rw [update_of_ne hut, if_neg (Ne.symm hut), ← h.unfinished u]
  · by_cases hut : u = t
    · subst hut
      obtain rfl := hself hr'
      exact asked_submitted
    · obtain ⟨hr, hc, hb⟩ := hother hr' hut
      refine (h.asked u r' hr ?_ hn).cons hc
      rw [← hb]
      exact hdisk
  · by_cases hut : u = t
    · subst hut
      obtain rfl := hself hr'
      exact absurd (hdone (by simp [fill])) hd
    · obtain ⟨hr, hc, hb⟩ := hother hr' hut
      refine (h.answered u r' hr fun hdisk => hdone ?_).cons hc
      rw [← hb] at hdisk
      exact hdisk

/-- `virtio_disk_rw` fills in its descriptors. -/
theorem Inv.submit [DecidableEq β] (h : Inv s G q d) (hG : G t = .ready r.b)
    (hlock : s.vdiskLock = none) (htook : Took s s₁ r.head r.data r.status) :
    Inv { fill t r s₁ with vdiskLock := some t } (update G t (.filled r)) q d := by
  have hreq : (G t).req = none := by rw [hG]; rfl
  have hd : r.head ∉ d.map Prod.fst := fun hmem =>
    h.rings.notMem_of_free h.table htook.free₁ (mem_append_right _ hmem)
  refine ⟨h.locked.take (fun x => ?_) hlock rfl (by rw [hG]; rfl) trivial,
    h.table.submit hreq htook (some t), h.rings.submit h.locked h.table hG hlock htook,
    h.story.submit h.locked h.table hG htook hd⟩
  rw [htook.eq]
  exact view_update Buf.lock (by rfl) x

/-- `virtio_disk_rw` publishes its request. -/
theorem Inv.publish (h : Inv s G q d) (hG : G t = .filled r) :
    Inv { s with avail := { s.avail with idx := s.avail.idx + 1 } }
      (update G t (.published r)) (q ++ [r.head]) d := by
  have hreq : (G t).req = some r := by rw [hG]; rfl
  have hkeep : ∀ u, (update G t (View.published r) u).req = (G u).req :=
    view_update View.req (by rw [hG]; rfl)
  have hhead : r.head ∉ heads s q d :=
    h.rings.notMem_heads h.table hreq fun hs => by rw [hG] at hs; cases hs
  have hdisk := h.rings.disk t r (.inl hG)
  have hperm : (heads s (q ++ [r.head]) d).Perm (r.head :: heads s q d) := by
    simp only [heads, append_assoc]
    exact perm_middle
  -- nobody else holds the lock
  have hnone : ∀ u, u ≠ t → ¬ (G u).Locks := fun u hu hv =>
    hu (h.locked.eq_of_locks (by rw [hG]; trivial) hv)
  refine ⟨h.locked.keep (fun _ => rfl) rfl (by rw [hG]; rfl) (by rw [hG]; rfl),
    h.table.congr hkeep rfl rfl rfl fun _ => rfl,
    ⟨?_, h.rings.used, hperm.nodup_iff.mpr (nodup_cons.mpr ⟨hhead, h.rings.nodup⟩),
      fun i => ?_, fun u r' hu => ?_, fun u r' hu => ?_, h.rings.done, fun u n hu => ?_⟩,
    h.story.congr hkeep rfl fun _ => rfl⟩
  · rw [map_append]
    have hlen : (q.map id16).length < num := by
      have := length_lt_of_notMem h.rings.nodup hhead
      simp only [heads, length_append, length_map] at this ⊢
      omega
    have := h.rings.avail.advance (by decide) hlen (h.rings.filled t r hG)
    rwa [← idx_succ] at this
  · refine hperm.mem_iff.trans ?_
    rw [mem_cons, h.rings.mem i]
    constructor
    · rintro (rfl | ⟨u, r', hr', hi, hd⟩)
      · exact ⟨t, r, by rw [update_self]; rfl, rfl, hdisk⟩
      · have hu : u ≠ t := by
          rintro rfl
          rw [hG] at hr'
          cases hr'
        exact ⟨u, r', by rwa [update_of_ne hu], hi, hd⟩
    · rintro ⟨u, r', hr', hi, hd⟩
      rcases update_cases hr' with ⟨-, ⟨⟩⟩ | ⟨-, hr'⟩
      · exact .inl hi.symm
      · exact .inr ⟨u, r', hr', hi, hd⟩
  · obtain ⟨-, heq⟩ := eq_of_update_locks hnone hu trivial
    cases heq
  · rcases hu with hu | hu
    · obtain ⟨-, heq⟩ := eq_of_update_locks hnone hu trivial
      cases heq
    · obtain ⟨-, heq⟩ := eq_of_update_locks hnone hu trivial
      cases heq
      exact hdisk
  · obtain ⟨-, heq⟩ := eq_of_update_locks hnone hu trivial
    cases heq

/-- `virtio_disk_rw` goes to wait. -/
theorem Inv.release (h : Inv s G q d) (hG : G t = .published r) :
    Inv { s with vdiskLock := none } (update G t (.waiting r)) q d :=
  h.act (h.locked.drop (fun _ => rfl) (by rw [hG]; trivial) rfl (by rw [hG]; rfl) id)
    (fun _ => rfl) (by rw [hG]; rfl) (by rw [hG]; rfl) nofun nofun nofun

section

omit [DecidableEq ι] [DecidableEq κ]

theorem giveBack_free_of_notMem (h : x ∉ r.ids) : (giveBack r s).free x = s.free x := by
  rw [Request.mem_ids, not_or, not_or] at h
  simp [giveBack, freeing, h.1, h.2.1, h.2.2]

theorem giveBack_desc_of_notMem (h : x ∉ r.ids) : (giveBack r s).desc x = s.desc x := by
  rw [Request.mem_ids, not_or, not_or] at h
  simp [giveBack, freeing, h.1, h.2.1, h.2.2]

theorem giveBack_of_mem (h : x ∈ r.ids) :
    (giveBack r s).free x = true ∧ (giveBack r s).desc x = Desc.zero := by
  rcases Request.mem_ids.mp h with rfl | rfl | rfl <;>
    simp [giveBack, freeing, Function.update_apply]

end

/-- The descriptors of a request, once they have been given back. -/
theorem Table.finish (h : Table s G) (hr : (G t).req = some r) {v : View β} (hv : v.req = none) :
    Table (finished t r s) (update G t v) := by
  have hother : ∀ {u r'}, (update G t v u).req = some r' → u ≠ t ∧ (G u).req = some r' := by
    intro u r' hr'
    rcases update_cases hr' with ⟨-, hnew⟩ | hold
    · cases hv.symm.trans hnew
    · exact hold
  have hout : ∀ {u r' x}, u ≠ t → (G u).req = some r' → x ∈ r'.ids → x ∉ r.ids := by
    intro u r' x hu hr' hx hmem
    exact hu (h.eq_of_mem hr hr' hmem hx).1
  refine ⟨fun u r' hr' => ?_, fun u w r₁ r₂ h₁ h₂ huw => ?_, fun x hx => ?_, fun x hx => ?_⟩
  · obtain ⟨hu, hr'⟩ := hother hr'
    refine (h.chain u r' hr').congr (fun x hx => giveBack_free_of_notMem (hout hu hr' hx))
      (fun x hx => giveBack_desc_of_notMem (hout hu hr' hx)) rfl ?_
    have hne : r'.head ≠ r.head := by
      intro heq
      exact hout hu hr' r'.head_mem_ids (heq ▸ r.head_mem_ids)
    show (update s.info r.head _ r'.head).b = _
    rw [update_of_ne hne]
  · exact h.apart u w r₁ r₂ (hother h₁).2 (hother h₂).2 huw
  · by_cases hmem : x ∈ r.ids
    · have htrue : (finished t r s).free x = true := (giveBack_of_mem hmem).1
      rw [htrue] at hx
      cases hx
    · have hx' : s.free x = false := (giveBack_free_of_notMem hmem).symm.trans hx
      obtain ⟨u, r', hr', hxr⟩ := h.owned x hx'
      have hu : u ≠ t := by
        rintro rfl
        rw [hr] at hr'
        cases hr'
        exact hmem hxr
      exact ⟨u, r', by rwa [update_of_ne hu], hxr⟩
  · by_cases hmem : x ∈ r.ids
    · exact (giveBack_of_mem hmem).2
    · have hx' : s.free x = true := (giveBack_free_of_notMem hmem).symm.trans hx
      exact (giveBack_desc_of_notMem hmem).trans (h.zero x hx')

/-- **`virtio_disk_rw` returns.** -/
theorem Inv.finish (h : Inv s G q d) (hG : G t = .waiting r) (hlock : s.vdiskLock = none)
    (hdisk : (s.buf r.b).disk = false) : Inv (finished t r s) (update G t (.ready r.b)) q d := by
  have hr : (G t).req = some r := by rw [hG]; rfl
  have hhead : r.head ∉ heads s q d := h.rings.notMem_heads h.table hr fun _ => hdisk
  have hother : ∀ {u r'}, (update G t (View.ready r.b) u).req = some r' →
      u ≠ t ∧ (G u).req = some r' := by
    intro u r' hr'
    obtain ⟨-, ⟨⟩⟩ | hold := update_cases hr'
    exact hold
  have hanswered : Answered t r s.hist :=
    h.story.answered t r hr fun htrue => by rw [hdisk] at htrue; cases htrue
  refine ⟨h.locked.keep (fun _ => rfl) hlock.symm (by rw [hG]; rfl) (by rw [hG]; rfl),
    h.table.finish hr rfl,
    h.rings.act rfl rfl rfl rfl rfl (fun x hx => ?_) (fun _ => rfl) (.inr ⟨rfl, fun r' hr' => ?_⟩)
      (by rintro _ ⟨⟩) (by rintro _ ⟨⟩) (by rintro _ ⟨⟩),
    ⟨fun u => ?_, fun u r' hr' hd hn => ?_, fun u r' hr' hd => ?_, h.story.served,
      h.story.replied.cons ?_⟩⟩
  · have hne : x.1 ≠ r.head := by
      intro heq
      exact hhead (heq ▸ mem_append_right _ (mem_map_of_mem hx))
    exact update_of_ne hne ..
  · rw [hG] at hr'
    cases hr'
    exact hdisk
  · show (if t = u then none else Virtio.unfinished u s.hist) = _
    by_cases hut : u = t
    · subst hut
      rw [update_self, if_pos rfl]
      rfl
    · rw [update_of_ne hut, if_neg (Ne.symm hut), ← h.story.unfinished u]
  · obtain ⟨hu, hr'⟩ := hother hr'
    exact (h.story.asked u r' hr' hd hn).cons (Ne.symm hu)
  · obtain ⟨hu, hr'⟩ := hother hr'
    exact (h.story.answered u r' hr' hd).cons (Ne.symm hu)
  · rintro _ _ ⟨⟩
    exact hanswered

/-! ## The interrupt handler -/

/-- `virtio_disk_intr` is entered, with enough turns for everything that is on its way. -/
theorem Inv.enterIntr (h : Inv s G q d) (hG : G t = .idle) (hlock : s.vdiskLock = none) :
    Inv { s with vdiskLock := some t } (update G t (.serving (num + 1))) q d := by
  have hlen : (heads s q d).length ≤ num := by
    simpa using List.Nodup.length_le_card h.rings.nodup
  refine h.act (h.locked.take (fun _ => rfl) hlock rfl (by rw [hG]; rfl) trivial)
    (fun _ => rfl) (by rw [hG]; rfl) (by rw [hG]; rfl) nofun nofun ?_
  rintro n ⟨⟩
  exact Nat.lt_succ_of_le hlen

/-- `virtio_disk_intr` returns. -/
theorem Inv.leaveIntr (h : Inv s G q d) (hG : G t = .serving n) :
    Inv { s with vdiskLock := none } (update G t .idle) q d :=
  h.act (h.locked.drop (fun _ => rfl) (by rw [hG]; trivial) rfl (by rw [hG]; rfl) id)
    (fun _ => rfl) (by rw [hG]; rfl) (by rw [hG]; rfl) nofun nofun nofun

/-- What `virtio_disk_intr` does with one entry of the used ring. -/
def serving [DecidableEq β] (s : State ι κ β) (i : DescId) (b : β) : State ι κ β :=
  { s with
    buf := update s.buf b { s.buf b with disk := false }
    usedIdx := s.usedIdx + 1
    hist := .served i b :: s.hist }

/-- **One turn of `virtio_disk_intr`**: the buffer is that of a request that was completed. -/
theorem Inv.serve [DecidableEq β] {i : DescId} (h : Inv s G q ((i, b) :: d))
    (hG : G t = .serving (n + 1)) : Inv (serving s i b) (update G t (.serving n)) q d := by
  have hkeep : ∀ u, (update G t (View.serving n) u).req = (G u).req :=
    view_update View.req (by rw [hG]; rfl)
  have hsent : ∀ u, (update G t (View.serving n) u).sent = (G u).sent :=
    view_update View.sent (by rw [hG]; rfl)
  have hperm : (heads s q ((i, b) :: d)).Perm (i :: heads s q d) := perm_middle
  obtain ⟨hnew, hnodup⟩ := nodup_cons.mp (hperm.nodup_iff.mp h.rings.nodup)
  -- the request whose head was completed, and its buffer
  obtain ⟨w, r₀, hr₀, hi, hdisk₀⟩ :=
    (h.rings.mem i).mp (hperm.mem_iff.mpr (.head _))
  have hreq₀ := View.req_of_sent hr₀
  have hb : r₀.b = b := by
    have hinfo := h.rings.done (i, b) (.head _)
    have hchain := (h.table.chain w r₀ hreq₀).info
    rw [hi] at hchain
    rw [show s.info i = ⟨some b, 0⟩ from hinfo] at hchain
    exact (Option.some.inj hchain).symm
  subst hb
  -- every other request has another head and another buffer
  have hsame : ∀ {u r'}, (G u).req = some r' → (r'.head = i ↔ r'.b = r₀.b) := by
    intro u r' hr'
    constructor
    · intro hhead
      obtain ⟨-, rfl⟩ := h.table.eq_of_mem hreq₀ hr' (r₀.head_mem_ids)
        (by rw [hi, ← hhead]; exact r'.head_mem_ids)
      rfl
    · intro hbuf
      have hu : u = w :=
        h.locked.eq_of_buf (View.buf_of_req hreq₀) (hbuf ▸ View.buf_of_req hr')
      subst hu
      rw [hreq₀] at hr'
      cases hr'
      exact hi
  have hdisk : ∀ {u r'}, (G u).req = some r' →
      (((serving s i r₀.b).buf r'.b).disk = true ↔ (s.buf r'.b).disk = true ∧ r'.head ≠ i) := by
    intro u r' hr'
    rw [Ne, hsame hr']
    by_cases hbuf : r'.b = r₀.b
    · simp [serving, hbuf]
    · simp [serving, hbuf]
  -- nobody else holds the lock
  have hnone : ∀ u, u ≠ t → ¬ (G u).Locks := fun u hu hv =>
    hu (h.locked.eq_of_locks (by rw [hG]; trivial) hv)
  refine ⟨h.locked.keep (fun x => ?_) rfl (by rw [hG]; rfl) (by rw [hG]; rfl),
    h.table.congr hkeep rfl rfl rfl fun _ => rfl,
    ⟨h.rings.avail, ?_, hnodup, fun j => ?_, fun u r' hu => ?_, fun u r' hu => ?_,
      fun x hx => h.rings.done x (.tail _ hx), fun u m hu => ?_⟩,
    ⟨fun u => (h.story.unfinished u).trans (hkeep u).symm, fun u r' hr' hd hn => ?_,
      fun u r' hr' hd => ?_, ?_, h.story.replied.cons (by rintro _ _ ⟨⟩)⟩⟩
  · exact view_update Buf.lock (by rfl) x
  · have hwin := (h.rings.used.pop (by decide)).2
    rwa [← idx_succ] at hwin
  · have hj : j ∈ heads s q d ↔ j ∈ heads s q ((i, r₀.b) :: d) ∧ j ≠ i := by
      rw [hperm.mem_iff, mem_cons]
      constructor
      · intro hj
        exact ⟨.inr hj, fun heq => hnew (heq ▸ hj)⟩
      · rintro ⟨hj | hj, hne⟩
        · exact absurd hj hne
        · exact hj
    refine hj.trans ?_
    rw [h.rings.mem j]
    constructor
    · rintro ⟨⟨u, r', hr', rfl, hd⟩, hne⟩
      exact ⟨u, r', (hsent u).trans hr', rfl, (hdisk (View.req_of_sent hr')).mpr ⟨hd, hne⟩⟩
    · rintro ⟨u, r', hr', rfl, hd⟩
      rw [hsent] at hr'
      obtain ⟨hd, hne⟩ := (hdisk (View.req_of_sent hr')).mp hd
      exact ⟨⟨u, r', hr', rfl, hd⟩, hne⟩
  · obtain ⟨-, heq⟩ := eq_of_update_locks hnone hu trivial
    cases heq
  · rcases hu with hu | hu
    · obtain ⟨-, heq⟩ := eq_of_update_locks hnone hu trivial
      cases heq
    · obtain ⟨-, heq⟩ := eq_of_update_locks hnone hu trivial
      cases heq
  · obtain ⟨-, heq⟩ := eq_of_update_locks hnone hu trivial
    cases heq
    have hlen := h.rings.serving t (n + 1) hG
    rw [hperm.length_eq, length_cons] at hlen
    exact Nat.lt_of_succ_lt_succ hlen
  · rw [hkeep] at hr'
    obtain ⟨hd, hne⟩ := (hdisk hr').mp hd
    refine (h.story.asked u r' hr' hd fun hmem => ?_).cons id
    rcases mem_cons.mp hmem with heq | hmem
    · exact hne heq
    · exact hn hmem
  · rw [hkeep] at hr'
    refine (h.story.answered u r' hr' fun htrue => ?_).cons id
    by_cases hne : r'.head = i
    · rw [hne]
      exact (.head _)
    · exact .tail _ (hd ((hdisk hr').mpr ⟨htrue, hne⟩))
  · show completions s.hist = serves s.hist ++ [(i, r₀.b)] ++ d
    rw [h.story.served, append_assoc]
    rfl

/-! ## The device -/

/-- The device reads a head. -/
theorem Inv.fetch {i : DescId} (h : Inv s G (i :: q) d) :
    Inv { s with seen := s.seen + 1, pending := s.pending ++ [i] } G q d := by
  have hperm : (heads { s with seen := s.seen + 1, pending := s.pending ++ [i] } q d).Perm
      (heads s (i :: q) d) := by
    simp only [heads, append_assoc, cons_append, nil_append]
    exact (perm_middle.append_left q).trans perm_middle
  refine ⟨⟨h.locked.vdisk, h.locked.buf⟩, h.table.congr (fun _ => rfl) rfl rfl rfl fun _ => rfl,
    ⟨?_, h.rings.used, hperm.nodup_iff.mpr h.rings.nodup,
      fun j => hperm.mem_iff.trans (h.rings.mem j), h.rings.filled, h.rings.disk, h.rings.done,
      fun u n hu => ?_⟩,
    h.story.congr (fun _ => rfl) rfl fun _ => rfl⟩
  · have hwin := (h.rings.avail.pop (by decide)).2
    rwa [← idx_succ] at hwin
  · rw [hperm.length_eq]
    exact h.rings.serving u n hu

/-- What the device does when it completes the request with a head. -/
def completing (s : State ι κ β) (r : Request β) : State ι κ β :=
  { s with
    info := update s.info r.head { s.info r.head with status := 0 }
    used := ⟨s.used.idx + 1,
      update s.used.ring (Fin.ofNat num s.used.idx.toNat) (id32 r.head)⟩
    pending := s.pending.erase r.head
    hist := .completed r.head (blkReq r) r.b :: s.hist }

/-- **The device completes a request.** -/
theorem Inv.complete (h : Inv s G q d) (hr : (G t).sent = some r) (hp : r.head ∈ s.pending) :
    Inv (completing s r) G q (d ++ [(r.head, r.b)]) := by
  have hreq := View.req_of_sent hr
  have hperm : (heads (completing s r) q (d ++ [(r.head, r.b)])).Perm (heads s q d) := by
    have hp' : (s.pending.erase r.head ++ (d.map Prod.fst ++ [r.head])).Perm
        (s.pending ++ d.map Prod.fst) := by
      rw [← append_assoc]
      refine perm_append_comm.trans ?_
      exact ((perm_cons_erase hp).symm.append_right _)
    simp only [heads, append_assoc, map_append]
    exact hp'.append_left q
  have hmem : r.head ∈ heads s q d :=
    mem_append_left _ (mem_append_right _ hp)
  have hd : r.head ∉ d.map Prod.fst := by
    have := (nodup_append.mp h.rings.nodup).2.2
    exact fun hd => this r.head (mem_append_right _ hp) r.head hd rfl
  obtain ⟨u₀, r₀, hr₀, hhead, hdisk⟩ := (h.rings.mem r.head).mp hmem
  obtain ⟨rfl, rfl⟩ := h.table.eq_of_mem hreq (View.req_of_sent hr₀) r.head_mem_ids
    (hhead ▸ r₀.head_mem_ids)
  have hinfo : ∀ i, ((completing s r₀).info i).b = (s.info i).b := view_update Info.b rfl
  refine ⟨⟨h.locked.vdisk, h.locked.buf⟩, h.table.congr (fun _ => rfl) rfl rfl rfl hinfo,
    ⟨h.rings.avail, ?_, hperm.nodup_iff.mpr h.rings.nodup,
      fun j => hperm.mem_iff.trans (h.rings.mem j), h.rings.filled, h.rings.disk, fun x hx => ?_,
      fun u n hu => ?_⟩,
    ⟨h.story.unfinished, fun u r' hr' hd' hn => ?_, fun u r' hr' hd' => ?_, ?_,
      h.story.replied.cons (by rintro _ _ ⟨⟩)⟩⟩
  · have hlen : (d.map fun x => id32 x.1).length < num := by
      have := length_lt_of_notMem (nodup_append.mp h.rings.nodup).2.1 hd
      rwa [length_map] at this ⊢
    have := h.rings.used.push (by decide) hlen (id32 r₀.head)
    rw [← idx_succ] at this
    rw [map_append]
    exact this
  · rcases mem_append.mp hx with hx | hx
    · have hne : x.1 ≠ r₀.head := by
        intro heq
        exact hd (heq ▸ mem_map_of_mem hx)
      exact (update_of_ne hne ..).trans (h.rings.done x hx)
    · obtain rfl := mem_singleton.mp hx
      show update s.info r₀.head _ r₀.head = _
      rw [update_self, (h.table.chain u₀ r₀ hreq).info]
  · rw [hperm.length_eq]
    exact h.rings.serving u n hu
  · rw [map_append, mem_append, not_or] at hn
    refine (h.story.asked u r' hr' hd' hn.1).cons fun heq => ?_
    exact hn.2 (mem_singleton.mpr (Eq.symm heq))
  · by_cases hhead : r'.head = r₀.head
    · obtain ⟨rfl, rfl⟩ := h.table.eq_of_mem hreq hr' r₀.head_mem_ids (hhead ▸ r'.head_mem_ids)
      exact (h.story.asked u r' hr' hdisk hd).completed
    · refine (h.story.answered u r' hr' fun htrue => ?_).cons (Ne.symm hhead)
      have := hd' htrue
      rw [map_append, mem_append] at this
      rcases this with hmem | hmem
      · exact hmem
      · exact absurd (mem_singleton.mp hmem) hhead
  · show completions s.hist ++ [(r₀.head, r₀.b)] = serves s.hist ++ (d ++ [(r₀.head, r₀.b)])
    rw [h.story.served, append_assoc]

/-! ## Sleeplocks -/

/-- A process takes the sleeplock of a buffer. -/
theorem Inv.acquiresleep [DecidableEq β] (h : Inv s G q d) (hG : G t = .idle)
    (hlock : (s.buf b).lock = none) (blockno : UInt32) :
    Inv { s with
      buf := update s.buf b { s.buf b with lock := some t, blockno := blockno } }
      (update G t (.ready b)) q d := by
  refine h.act ⟨fun u => ?_, fun u x hx => ?_⟩ (view_update Buf.disk rfl) (by rw [hG]; rfl)
    (by rw [hG]; rfl) nofun nofun nofun
  · rw [view_update View.Locks (by rw [hG]; rfl)]
    exact h.locked.vdisk u
  · rcases update_cases hx with ⟨rfl, ⟨⟩⟩ | ⟨-, hx⟩
    · show (update s.buf b _ b).lock = _
      rw [update_self]
    · have hheld := h.locked.buf u x hx
      have hxb : x ≠ b := by
        rintro rfl
        rw [hlock] at hheld
        cases hheld
      show (update s.buf b _ x).lock = _
      rw [update_of_ne hxb, hheld]

/-- A process gives it up. -/
theorem Inv.releasesleep [DecidableEq β] (h : Inv s G q d) (hG : G t = .ready b) :
    Inv { s with buf := update s.buf b { s.buf b with lock := none } }
      (update G t .idle) q d := by
  refine h.act ⟨fun u => ?_, fun u x hx => ?_⟩ (view_update Buf.disk rfl) (by rw [hG]; rfl)
    (by rw [hG]; rfl) nofun nofun nofun
  · rw [view_update View.Locks (by rw [hG]; rfl)]
    exact h.locked.vdisk u
  · obtain ⟨-, ⟨⟩⟩ | ⟨hu, hx⟩ := update_cases hx
    have hxb : x ≠ b := by
      rintro rfl
      exact hu (h.locked.eq_of_buf (by rw [hG]; rfl) hx)
    show (update s.buf b _ x).lock = _
    rw [update_of_ne hxb, h.locked.buf u x hx]

end Virtio

end TrinityXv6
