import Mathlib.Data.Fintype.Card
import TrinityXv6.Log.Invariant

/-!
# The buffer cache under the actions of `bio.c`

What each action of `bio.c` does to `CacheOk`: one lemma per action, and `bgetLocked_cases`, which
says once and for all what `bget` can do.
-/

namespace TrinityXv6

namespace Log

open Threads
open List
open Ghost

variable {τ : Type} {s s' : State τ} {G G' : Ghost τ}

/-! ## Projections of a changed buffer -/

variable {f : Buf τ → Buf τ} {i : BufId} {t : τ} {b : ℕ}

theorem setBuf_proj {α : Type} (p : Buf τ → α) (hp : p (f (s.bc.buf i)) = p (s.bc.buf i))
    (j : BufId) : p ((s.setBuf i f).bc.buf j) = p (s.bc.buf j) := by
  rw [setBuf_apply]
  split
  · next h => rw [hp, h]
  · rfl

theorem cached_congr (hd : (s'.bc.buf i).dev = (s.bc.buf i).dev)
    (hb : (s'.bc.buf i).blockno = (s.bc.buf i).blockno) : Cached s' b i ↔ Cached s b i := by
  rw [Cached, Cached, hd, hb]

/-- The contents of a buffer do not say which block it caches. -/
theorem cached_setData {j : BufId} {d : Blk} {es : List (Event τ)} :
    Cached ((s.setBuf j fun x => { x with data := d }).note es) b i ↔ Cached s b i := by
  refine cached_congr ?_ ?_ <;> rw [note_bc]
  · exact setBuf_proj Buf.dev rfl i
  · exact setBuf_proj Buf.blockno rfl i

theorem setBuf_data_self (s : State τ) (i : BufId) :
    (s.setBuf i fun b => { b with data := (s.bc.buf i).data }) = s := by
  simp [State.setBuf]

theorem pins_congr (hd : ∀ i, (s'.bc.buf i).dev = (s.bc.buf i).dev)
    (hb : ∀ i, (s'.bc.buf i).blockno = (s.bc.buf i).blockno) (hp : pinned s' G' = pinned s G)
    (i : BufId) : pins s' G' i = pins s G i := by
  simp only [pins, hd i, hb i, hp]

/-- Counting references after one was taken. -/
theorem holders_cons (s : State τ) (t : τ) (i j : BufId) :
    holders { s with refs := (t, i) :: s.refs } j = holders s j + if i = j then 1 else 0 := by
  simp [holders, count_cons]

theorem holders_pos (hi : (t, i) ∈ s.refs) : 0 < holders s i :=
  count_pos_iff.mpr (mem_map.mpr ⟨(t, i), hi, rfl⟩)

@[simp] theorem fill_dev (b : Buf τ) (disk : ℕ → Blk) : (fill b disk).dev = b.dev := by
  unfold fill; split <;> rfl

@[simp] theorem fill_blockno (b : Buf τ) (disk : ℕ → Blk) : (fill b disk).blockno = b.blockno := by
  unfold fill; split <;> rfl

@[simp] theorem fill_refcnt (b : Buf τ) (disk : ℕ → Blk) : (fill b disk).refcnt = b.refcnt := by
  unfold fill; split <;> rfl

@[simp] theorem fill_lock (b : Buf τ) (disk : ℕ → Blk) : (fill b disk).lock = b.lock := by
  unfold fill; split <;> rfl

@[simp] theorem fill_valid (b : Buf τ) (disk : ℕ → Blk) : (fill b disk).valid = true := by
  unfold fill; split
  · assumption
  · rfl

variable [DecidableEq τ]

/-- Counting references after one was dropped. -/
theorem holders_erase (h : (t, i) ∈ s.refs) (j : BufId) :
    holders { s with refs := s.refs.erase (t, i) } j + (if i = j then 1 else 0) = holders s j := by
  have hp : (s.refs.map Prod.snd).Perm (((t, i) :: s.refs.erase (t, i)).map Prod.snd) :=
    (perm_cons_erase h).map _
  rw [holders, holders, hp.count_eq j]
  simp [count_cons]

/-! ## Facts read off the invariant -/

variable (h : CacheOk s G) {m : Mine τ}
include h

theorem CacheOk.mem_refs (hi : i ∈ (G.th t).refs) : (t, i) ∈ s.refs := by
  rw [← count_pos_iff, h.count]
  exact count_pos_iff.mpr hi

theorem CacheOk.of_mem_refs (hi : (t, i) ∈ s.refs) : i ∈ (G.th t).refs := by
  rw [← count_pos_iff, ← h.count]
  exact count_pos_iff.mpr hi

theorem CacheOk.refcnt_pos (hi : i ∈ (G.th t).refs) : 0 < (s.bc.buf i).refcnt := by
  have := holders_pos (h.mem_refs hi)
  rw [h.refcnt]
  omega

theorem CacheOk.refcnt_pos_of_pinned (hc : Cached s b i) (hb : b ∈ pinned s G) :
    0 < (s.bc.buf i).refcnt := by
  rw [h.refcnt, pins, if_pos ⟨hc.1, hc.2.symm ▸ hb⟩]
  omega

theorem CacheOk.cached (hi : i ∈ (G.th t).locks) : Cached s ((G.th t).blk i) i :=
  h.blk t i (h.lock_ref t i hi)

/-! ## What `bget` can do -/

/-- **The critical section of `bget`.** It finds the block in a buffer, or recycles an
unreferenced buffer, or panics because every buffer is referenced. -/
theorem bgetLocked_cases (dev b : ℕ) (t : τ) :
    (∃ i, (s.bc.buf i).dev = dev ∧ (s.bc.buf i).blockno = b ∧
      bgetLocked dev b t s = .done i ({ s with refs := (t, i) :: s.refs }.setBuf i fun b =>
        { b with refcnt := b.refcnt + 1 }) []) ∨
    ((∀ j, ¬ ((s.bc.buf j).dev = dev ∧ (s.bc.buf j).blockno = b)) ∧
      ∃ i, (s.bc.buf i).refcnt = 0 ∧
      bgetLocked dev b t s = .done i ({ s with refs := (t, i) :: s.refs }.setBuf i fun b' =>
        { b' with dev := dev, blockno := b, valid := false, refcnt := 1 }) []) ∨
    ((∀ j, ¬ ((s.bc.buf j).dev = dev ∧ (s.bc.buf j).blockno = b)) ∧
      (∀ j, (s.bc.buf j).refcnt ≠ 0) ∧ bgetLocked dev b t s = .halt .noBuffers) := by
  obtain ⟨l, hl, hnd, hall⟩ := h.ring
  have hlen : l.length < nbuf + 1 := by
    have := hnd.length_le_card
    rw [Fintype.card_fin] at this
    omega
  rw [bgetLocked, hl.scan_next _ hlen]
  cases hf : l.find? fun i => (s.bc.buf i).dev = dev && (s.bc.buf i).blockno = b with
  | some i =>
    have hi := List.find?_some hf
    simp only [Bool.and_eq_true, decide_eq_true_eq] at hi
    exact .inl ⟨i, hi.1, hi.2, rfl⟩
  | none =>
    have hmiss : ∀ j, ¬ ((s.bc.buf j).dev = dev ∧ (s.bc.buf j).blockno = b) := by
      intro j
      have := List.find?_eq_none.mp hf j (hall j)
      simpa using this
    rw [hl.scan_prev _ hlen]
    cases hr : l.reverse.find? fun i => (s.bc.buf i).refcnt = 0 with
    | some i =>
      have hi := List.find?_some hr
      exact .inr (.inl ⟨hmiss, i, by simpa using hi, rfl⟩)
    | none =>
      refine .inr (.inr ⟨hmiss, fun j => ?_, rfl⟩)
      have := List.find?_eq_none.mp hr j (mem_reverse.mpr (hall j))
      simpa using this

/-- When every buffer is referenced and all references are those of one thread, that thread has
many references or many blocks are pinned. -/
theorem CacheOk.nbuf_le (hall : ∀ x ∈ s.refs, x.1 = t) (h0 : ∀ j, (s.bc.buf j).refcnt ≠ 0) :
    nbuf ≤ (G.th t).refs.length + (pinned s G).length := by
  set B : Finset BufId := Finset.univ.filter fun j =>
    (s.bc.buf j).dev = rootDev ∧ (s.bc.buf j).blockno ∈ pinned s G with hB
  have hcover : (Finset.univ : Finset BufId) ⊆ (G.th t).refs.toFinset ∪ B := by
    intro j _
    rw [Finset.mem_union]
    by_cases hp : (s.bc.buf j).dev = rootDev ∧ (s.bc.buf j).blockno ∈ pinned s G
    · exact .inr (by simpa [hB] using hp)
    · have hpos : 0 < holders s j := by
        have := h.refcnt j
        rw [pins, if_neg hp] at this
        have := h0 j
        omega
      obtain ⟨⟨u, i⟩, hx, hi⟩ := mem_map.mp (count_pos_iff.mp hpos)
      obtain rfl : i = j := hi
      obtain rfl : u = t := hall _ hx
      exact .inl (mem_toFinset.mpr (h.of_mem_refs hx))
  have hinj : Set.InjOn (fun j => (s.bc.buf j).blockno) B := by
    intro i hi j hj hij
    have hi' : (s.bc.buf i).dev = rootDev := (Finset.mem_filter.mp hi).2.1
    have hj' : (s.bc.buf j).dev = rootDev := (Finset.mem_filter.mp hj).2.1
    exact h.uniq _ i j ⟨hi', rfl⟩ ⟨hj', hij.symm⟩
  have hBcard : B.card ≤ (pinned s G).length := by
    rw [← Finset.card_image_of_injOn hinj]
    refine (Finset.card_le_card ?_).trans (toFinset_card_le _)
    intro b hb
    obtain ⟨j, hj, rfl⟩ := Finset.mem_image.mp hb
    exact mem_toFinset.mpr (Finset.mem_filter.mp hj).2.2
  calc nbuf = (Finset.univ : Finset BufId).card := by rw [Finset.card_univ, Fintype.card_fin]
    _ ≤ ((G.th t).refs.toFinset ∪ B).card := Finset.card_le_card hcover
    _ ≤ (G.th t).refs.toFinset.card + B.card := Finset.card_union_le _ _
    _ ≤ (G.th t).refs.length + (pinned s G).length :=
      Nat.add_le_add (toFinset_card_le _) hBcard

/-! ## The actions -/

section

variable (hlinks : s'.bc.links = s.bc.links) (hdev : ∀ i, (s'.bc.buf i).dev = (s.bc.buf i).dev)
include hlinks hdev

/-- `CacheOk` looks at the buffers only through their identity, reference count, lock and
validity. -/
theorem CacheOk.of_refcnt (hblk : ∀ i, (s'.bc.buf i).blockno = (s.bc.buf i).blockno)
    (hlock : ∀ i, (s'.bc.buf i).lock = (s.bc.buf i).lock)
    (hvalid : ∀ i, (s'.bc.buf i).valid = (s.bc.buf i).valid) (hrefs : s'.refs = s.refs)
    (hth : G'.th = G.th) (href : ∀ i, (s'.bc.buf i).refcnt = holders s i + pins s' G' i) :
    CacheOk s' G' where
  ring := by rw [hlinks]; exact h.ring
  uniq b i j hi hj := h.uniq b i j ((cached_congr (hdev i) (hblk i)).mp hi)
    ((cached_congr (hdev j) (hblk j)).mp hj)
  refcnt i := by rw [href, holders, holders, hrefs]
  count t i := by rw [hrefs, hth, h.count]
  blk t i hi := by
    rw [hth] at hi ⊢
    exact (cached_congr (hdev i) (hblk i)).mpr (h.blk t i hi)
  lock t i := by rw [hlock, hth, h.lock]
  lock_ref t i hi := by
    rw [hth] at hi ⊢
    exact h.lock_ref t i hi
  full t i hi := by
    rw [hth] at hi ⊢
    rw [hvalid]
    exact h.full t i hi

theorem CacheOk.congr (hblk : ∀ i, (s'.bc.buf i).blockno = (s.bc.buf i).blockno)
    (href : ∀ i, (s'.bc.buf i).refcnt = (s.bc.buf i).refcnt)
    (hlock : ∀ i, (s'.bc.buf i).lock = (s.bc.buf i).lock)
    (hvalid : ∀ i, (s'.bc.buf i).valid = (s.bc.buf i).valid) (hrefs : s'.refs = s.refs)
    (hth : G'.th = G.th) (hp : pinned s' G' = pinned s G) : CacheOk s' G' :=
  h.of_refcnt hlinks hdev hblk hlock hvalid hrefs hth fun i => by
    rw [href, h.refcnt, pins_congr hdev hblk hp]

end

/-- Changes outside the cache. -/
theorem CacheOk.congr_bc (hbc : s'.bc = s.bc) (hrefs : s'.refs = s.refs) (hth : G'.th = G.th)
    (hp : pinned s' G' = pinned s G) : CacheOk s' G' := by
  refine h.congr ?_ ?_ ?_ ?_ ?_ ?_ hrefs hth hp <;> simp [hbc]

/-- A change of the contents of a buffer. -/
theorem CacheOk.setData (i : BufId) (d : Blk) :
    CacheOk (s.setBuf i fun b => { b with data := d }) G :=
  h.congr rfl (setBuf_proj Buf.dev rfl) (setBuf_proj Buf.blockno rfl) (setBuf_proj Buf.refcnt rfl)
    (setBuf_proj Buf.lock rfl) (setBuf_proj Buf.valid rfl) rfl rfl rfl

/-- What a thread knows changed in none of the respects `CacheOk` looks at. -/
theorem CacheOk.setMine (hr : m.refs = (G.th t).refs) (hb : m.blk = (G.th t).blk)
    (hl : m.locks = (G.th t).locks) (hf : m.full = (G.th t).full) : CacheOk s (G.set t m) where
  ring := h.ring
  uniq := h.uniq
  refcnt := h.refcnt
  count u i := by rw [set_proj Mine.refs G hr, h.count]
  blk u i hi := by
    rw [set_proj Mine.refs G hr] at hi
    rw [set_proj Mine.blk G hb]
    exact h.blk u i hi
  lock u i := by rw [set_proj Mine.locks G hl, h.lock]
  lock_ref u i hi := by
    rw [set_proj Mine.locks G hl] at hi
    rw [set_proj Mine.refs G hr]
    exact h.lock_ref u i hi
  full u i hi := by
    rw [set_proj Mine.full G hf] at hi
    rw [set_proj Mine.locks G hl]
    exact h.full u i hi

/-- What a thread knows after `bget` gave it buffer `i` for block `b`. -/
def Mine.addRef (m : Mine τ) (i : BufId) (b : ℕ) : Mine τ :=
  { m with refs := i :: m.refs, blk := Function.update m.blk i b }

theorem CacheOk.count_addRef (t : τ) (i : BufId) (b : ℕ) (u : τ) (j : BufId) :
    ((t, i) :: s.refs).count (u, j) = ((G.set t ((G.th t).addRef i b)).th u).refs.count j := by
  by_cases hu : u = t
  · subst hu
    by_cases hj : i = j <;> simp [Mine.addRef, hj, h.count]
  · rw [set_of_ne _ _ hu, ← h.count, count_cons_of_ne]
    exact fun hc => hu (Prod.mk.inj hc).1.symm

/-- A reference taken to buffer `i`, which afterwards caches block `b`: everything about `bget`
that does not depend on whether it hit. -/
theorem CacheOk.addRef (t : τ) (hb : Cached (s.setBuf i f) b i) (hlock : ∀ x, (f x).lock = x.lock)
    (hkeep : Cached s b i ∨ (s.bc.buf i).refcnt = 0) (huniq : ∀ j, j ≠ i → ¬ Cached s b j)
    (hvalid : (s.bc.buf i).refcnt ≠ 0 → (f (s.bc.buf i)).valid = (s.bc.buf i).valid)
    (href : (f (s.bc.buf i)).refcnt = (s.bc.buf i).refcnt + 1)
    (hpin : pins (s.setBuf i f) G i = pins s G i) :
    CacheOk ({ s with refs := (t, i) :: s.refs }.setBuf i f)
      (G.set t ((G.th t).addRef i b)) := by
  set s' : State τ := { s with refs := (t, i) :: s.refs }.setBuf i f
  have hother : ∀ j, j ≠ i → s'.bc.buf j = s.bc.buf j := fun j hj => setBuf_of_ne s i f hj
  have hcached : ∀ c j, j ≠ i → (Cached s' c j ↔ Cached s c j) := fun c j hj =>
    cached_congr (congrArg Buf.dev (hother j hj)) (congrArg Buf.blockno (hother j hj))
  -- a buffer some thread has a reference to keeps its identity
  have href_cached : ∀ u j, j ∈ (G.th u).refs → Cached s ((G.th u).blk j) j →
      Cached s' ((G.th u).blk j) j := by
    intro u j hj hc
    by_cases hji : j = i
    · subst hji
      rcases hkeep with hk | hk
      · have : (G.th u).blk j = b := by rw [← hc.2, hk.2]
        rw [this]
        exact hb
      · exact absurd hk (h.refcnt_pos hj).ne'
    · exact (hcached _ j hji).mpr hc
  refine ⟨h.ring, fun c j k hj hk => ?_, fun j => ?_, h.count_addRef t i b, fun u j hj => ?_,
    fun u j => ?_, fun u j hj => ?_, fun u j hj => ?_⟩
  · by_cases hji : j = i
    · by_cases hki : k = i
      · rw [hji, hki]
      · subst hji
        have hcb : c = b := by rw [← hj.2]; exact hb.2
        exact absurd (hcb ▸ (hcached c k hki).mp hk) (huniq k hki)
    · by_cases hki : k = i
      · subst hki
        have hcb : c = b := by rw [← hk.2]; exact hb.2
        exact absurd (hcb ▸ (hcached c j hji).mp hj) (huniq j hji)
      · exact h.uniq c j k ((hcached c j hji).mp hj) ((hcached c k hki).mp hk)
  · have hhold : holders s' j = holders s j + if i = j then 1 else 0 := holders_cons s t i j
    rw [hhold]
    have hrc := h.refcnt j
    by_cases hji : j = i
    · subst hji
      have h1 : (s'.bc.buf j).refcnt = (s.bc.buf j).refcnt + 1 := by
        rw [← href]; exact congrArg Buf.refcnt (setBuf_self s j f)
      have h2 : pins s' (G.set t ((G.th t).addRef j b)) j = pins s G j := hpin
      rw [h1, h2, hrc, if_pos rfl]
      omega
    · have h2 : pins s' (G.set t ((G.th t).addRef i b)) j = pins s G j := by
        simp only [pins, hother j hji]
        rfl
      rw [hother j hji, h2, hrc, if_neg (Ne.symm hji)]
      omega
  · by_cases hu : u = t
    · subst hu
      rw [set_self] at hj ⊢
      by_cases hji : j = i
      · subst hji
        rw [show ((G.th u).addRef j b).blk j = b by simp [Mine.addRef]]
        exact hb
      · have hj' : j ∈ (G.th u).refs := by simpa [Mine.addRef, hji] using hj
        simpa [Mine.addRef, Function.update_of_ne hji] using href_cached u j hj' (h.blk u j hj')
    · rw [set_of_ne _ _ hu] at hj ⊢
      exact href_cached u j hj (h.blk u j hj)
  · have h1 : (s'.bc.buf j).lock = (s.bc.buf j).lock := setBuf_proj Buf.lock (hlock _) j
    rw [set_proj Mine.locks G (m := (G.th t).addRef i b) rfl, h1, h.lock]
  · rw [set_proj Mine.locks G (m := (G.th t).addRef i b) rfl] at hj
    have := h.lock_ref u j hj
    by_cases hu : u = t
    · subst hu
      rw [set_self]
      exact .tail _ this
    · rw [set_of_ne _ _ hu]
      exact this
  · rw [set_proj Mine.full G (m := (G.th t).addRef i b) rfl] at hj
    rw [set_proj Mine.locks G (m := (G.th t).addRef i b) rfl]
    obtain ⟨hl, hv⟩ := h.full u j hj
    refine ⟨hl, ?_⟩
    by_cases hji : j = i
    · subst hji
      rw [← hv, ← hvalid (h.refcnt_pos (h.lock_ref u j hl)).ne']
      exact congrArg Buf.valid (setBuf_self s j f)
    · rw [hother j hji, hv]

/-- A hit of `bget`. -/
theorem CacheOk.hit (t : τ) (hi : Cached s b i) :
    CacheOk
      ({ s with refs := (t, i) :: s.refs }.setBuf i fun b => { b with refcnt := b.refcnt + 1 })
      (G.set t ((G.th t).addRef i b)) :=
  h.addRef t ((cached_congr (setBuf_proj Buf.dev rfl i) (setBuf_proj Buf.blockno rfl i)).mpr hi)
    (fun _ => rfl) (.inl hi) (fun j hj hc => hj (h.uniq b j i hc hi)) (fun _ => rfl) rfl
    (pins_congr (setBuf_proj Buf.dev rfl) (setBuf_proj Buf.blockno rfl) rfl i)

/-- A miss of `bget` that recycles buffer `i`. -/
theorem CacheOk.recycle (t : τ) (hmiss : ∀ j, ¬ Cached s b j) (h0 : (s.bc.buf i).refcnt = 0)
    (hb : b ∉ pinned s G) : CacheOk ({ s with refs := (t, i) :: s.refs }.setBuf i fun b' =>
      { b' with dev := rootDev, blockno := b, valid := false, refcnt := 1 })
      (G.set t ((G.th t).addRef i b)) := by
  refine h.addRef t ⟨by simp, by simp⟩ (fun _ => rfl) (.inr h0) (fun j _ => hmiss j)
    (fun hc => absurd h0 hc) (by rw [h0]) ?_
  have hpin : pins s G i = 0 := by
    have := h.refcnt i
    omega
  rw [hpin, pins, if_neg]
  rintro ⟨-, hc⟩
  rw [setBuf_self] at hc
  exact hb hc

/-- A buffer that keeps its identity and its reference count changes, and the thread that changes it
keeps its references. -/
theorem CacheOk.setBuf (hdev : (f (s.bc.buf i)).dev = (s.bc.buf i).dev)
    (hblk : (f (s.bc.buf i)).blockno = (s.bc.buf i).blockno)
    (href : (f (s.bc.buf i)).refcnt = (s.bc.buf i).refcnt) (hr : m.refs = (G.th t).refs)
    (hb : m.blk = (G.th t).blk)
    (hlock : ∀ u j, ((s.setBuf i f).bc.buf j).lock = some u ↔ j ∈ ((G.set t m).th u).locks)
    (hlr : ∀ j ∈ m.locks, j ∈ (G.th t).refs) (hfull : ∀ u, ∀ j ∈ ((G.set t m).th u).full,
      j ∈ ((G.set t m).th u).locks ∧ ((s.setBuf i f).bc.buf j).valid = true) :
    CacheOk (s.setBuf i f) (G.set t m) where
  ring := h.ring
  uniq b j k hj hk := h.uniq b j k
    ((cached_congr (setBuf_proj Buf.dev hdev j) (setBuf_proj Buf.blockno hblk j)).mp hj)
    ((cached_congr (setBuf_proj Buf.dev hdev k) (setBuf_proj Buf.blockno hblk k)).mp hk)
  refcnt j := by
    rw [setBuf_proj Buf.refcnt href, h.refcnt]
    exact congrArg (holders s j + ·)
      (pins_congr (setBuf_proj Buf.dev hdev) (setBuf_proj Buf.blockno hblk) rfl j).symm
  count u j := by
    rw [set_proj Mine.refs G hr]
    exact h.count u j
  blk u j hj := by
    rw [set_proj Mine.refs G hr] at hj
    rw [set_proj Mine.blk G hb]
    exact (cached_congr (setBuf_proj Buf.dev hdev j) (setBuf_proj Buf.blockno hblk j)).mpr
      (h.blk u j hj)
  lock := hlock
  lock_ref u j hj := by
    rw [set_proj Mine.refs G hr]
    by_cases hu : u = t
    · subst hu
      rw [set_self] at hj
      exact hlr j hj
    · rw [set_of_ne _ _ hu] at hj
      exact h.lock_ref u j hj
  full := hfull

/-- What a thread knows after it acquired the lock of buffer `i`. -/
def Mine.addLock (m : Mine τ) (i : BufId) : Mine τ := { m with locks := i :: m.locks }

/-- `acquiresleep` on a free lock. -/
theorem CacheOk.acquire (hfree : (s.bc.buf i).lock = none) (hi : i ∈ (G.th t).refs) :
    CacheOk (s.setBuf i fun b => { b with lock := some t })
      (G.set t ((G.th t).addLock i)) := by
  refine h.setBuf rfl rfl rfl rfl rfl (fun u j => ?_) (fun j hj => ?_) fun u j hj => ?_
  · by_cases hji : j = i
    · subst hji
      rw [setBuf_self]
      by_cases hu : u = t
      · subst hu; simp [Mine.addLock]
      · have hnl : j ∉ (G.th u).locks := fun hc => by simp [(h.lock u j).mpr hc] at hfree
        simp [set_of_ne _ _ hu, hnl, Ne.symm hu]
    · rw [setBuf_of_ne _ _ _ hji, h.lock]
      by_cases hu : u = t
      · subst hu; simp [Mine.addLock, hji]
      · rw [set_of_ne _ _ hu]
  · rcases mem_cons.mp hj with rfl | hj
    · exact hi
    · exact h.lock_ref t j hj
  · rw [set_proj Mine.full G (m := (G.th t).addLock i) rfl] at hj
    obtain ⟨hl, hv⟩ := h.full u j hj
    refine ⟨?_, by rw [setBuf_proj Buf.valid rfl, hv]⟩
    by_cases hu : u = t
    · subst hu
      rw [set_self]
      exact .tail _ hl
    · rw [set_of_ne _ _ hu]
      exact hl

/-- What a thread knows after `bread` gave it the contents of buffer `i`. -/
def Mine.addFull (m : Mine τ) (i : BufId) : Mine τ := { m with full := i :: m.full }

/-- The end of `bread`. -/
theorem CacheOk.fill (hi : i ∈ (G.th t).locks) :
    CacheOk (s.setBuf i fun _ => fill (s.bc.buf i) s.disk) (G.set t ((G.th t).addFull i)) := by
  refine h.setBuf (by simp) (by simp) (by simp) rfl rfl (fun u j => ?_) (h.lock_ref t)
    fun u j hj => ?_
  · rw [set_proj Mine.locks G (m := (G.th t).addFull i) rfl, setBuf_proj Buf.lock (by simp), h.lock]
  · rw [set_proj Mine.locks G (m := (G.th t).addFull i) rfl]
    by_cases hji : j = i
    · subst hji
      refine ⟨?_, by simp⟩
      by_cases hu : u = t
      · subst hu; exact hi
      · rw [set_of_ne _ _ hu] at hj
        exact (h.full u j hj).1
    · rw [setBuf_of_ne _ _ _ hji]
      refine h.full u j ?_
      by_cases hu : u = t
      · subst hu; simpa [Mine.addFull, hji] using hj
      · rwa [set_of_ne _ _ hu] at hj

/-- What a thread knows after it released the lock of buffer `i`. -/
def Mine.unlock (m : Mine τ) (i : BufId) : Mine τ :=
  { m with locks := m.locks.filter (· ≠ i), full := m.full.filter (· ≠ i) }

/-- `releasesleep` -/
theorem CacheOk.release (hi : s.Holds t i) :
    CacheOk (s.setBuf i fun b => { b with lock := none }) (G.set t ((G.th t).unlock i)) := by
  refine h.setBuf rfl rfl rfl rfl rfl (fun u j => ?_)
    (fun j hj => h.lock_ref t j (mem_of_mem_filter hj)) fun u j hj => ?_
  · by_cases hji : j = i
    · subst hji
      rw [setBuf_self]
      by_cases hu : u = t
      · subst hu; simp [Mine.unlock]
      · have hnl : j ∉ (G.th u).locks := fun hc => by
          have := (h.lock u j).mpr hc
          rw [show (s.bc.buf j).lock = some t from hi] at this
          exact hu (Option.some.inj this).symm
        simp [set_of_ne _ _ hu, hnl]
    · rw [setBuf_of_ne _ _ _ hji, h.lock]
      by_cases hu : u = t
      · subst hu; simp [Mine.unlock, hji]
      · rw [set_of_ne _ _ hu]
  · rw [setBuf_proj Buf.valid rfl]
    by_cases hu : u = t
    · subst hu
      rw [set_self] at hj ⊢
      obtain ⟨hj, hne⟩ := mem_filter.mp hj
      obtain ⟨hl, hv⟩ := h.full u j hj
      exact ⟨mem_filter.mpr ⟨hl, hne⟩, hv⟩
    · rw [set_of_ne _ _ hu] at hj ⊢
      exact h.full u j hj

/-- What a thread knows after it dropped a reference to buffer `i`. -/
def Mine.dropRef (m : Mine τ) (i : BufId) : Mine τ := { m with refs := m.refs.erase i }

/-- The reference count in the second half of `brelse`. -/
theorem CacheOk.dropRef (hi : i ∈ (G.th t).refs) (hl : i ∉ (G.th t).locks) :
    CacheOk ({ s with refs := s.refs.erase (t, i) }.setBuf i fun b =>
      { b with refcnt := b.refcnt - 1 }) (G.set t ((G.th t).dropRef i)) := by
  set s₁ : State τ := { s with refs := s.refs.erase (t, i) }
  set s' := s₁.setBuf i fun b => { b with refcnt := b.refcnt - 1 }
  have hdev : ∀ j, (s'.bc.buf j).dev = (s.bc.buf j).dev := setBuf_proj Buf.dev rfl
  have hblk : ∀ j, (s'.bc.buf j).blockno = (s.bc.buf j).blockno :=
    setBuf_proj Buf.blockno rfl
  have hlock : ∀ j, (s'.bc.buf j).lock = (s.bc.buf j).lock := setBuf_proj Buf.lock rfl
  have hvalid : ∀ j, (s'.bc.buf j).valid = (s.bc.buf j).valid :=
    setBuf_proj Buf.valid rfl
  refine ⟨h.ring, fun b j k hj hk => ?_, fun j => ?_, fun u j => ?_, fun u j hj => ?_,
    fun u j => ?_, fun u j hj => ?_, fun u j hj => ?_⟩
  · exact h.uniq b j k ((cached_congr (hdev j) (hblk j)).mp hj)
      ((cached_congr (hdev k) (hblk k)).mp hk)
  · have hpin : pins s' (G.set t ((G.th t).dropRef i)) j = pins s G j :=
      pins_congr hdev hblk rfl j
    have hhold : holders s' j + (if i = j then 1 else 0) = holders s j :=
      holders_erase (h.mem_refs hi) j
    have hrc := h.refcnt j
    rw [hpin]
    by_cases hji : j = i
    · subst hji
      rw [if_pos rfl] at hhold
      have : (s'.bc.buf j).refcnt = (s.bc.buf j).refcnt - 1 := by simp [s', s₁]
      rw [this, hrc]
      omega
    · rw [if_neg (Ne.symm hji)] at hhold
      have : (s'.bc.buf j).refcnt = (s.bc.buf j).refcnt := by
        simp [s', s₁, setBuf_of_ne _ _ _ hji]
      rw [this, hrc]
      omega
  · by_cases hu : u = t
    · subst hu
      rw [set_self]
      by_cases hji : j = i
      · subst hji
        simp [s', s₁, Mine.dropRef, count_erase_self, h.count]
      · have hne : (u, j) ≠ (u, i) := fun hc => hji (Prod.mk.inj hc).2
        simp [s', s₁, Mine.dropRef, count_erase_of_ne hne, count_erase_of_ne hji, h.count]
    · have hne : (u, j) ≠ (t, i) := fun hc => hu (Prod.mk.inj hc).1
      rw [set_of_ne _ _ hu, ← h.count]
      exact count_erase_of_ne hne
  · rw [cached_congr (hdev j) (hblk j), set_proj Mine.blk G (m := (G.th t).dropRef i) rfl]
    refine h.blk u j ?_
    by_cases hu : u = t
    · subst hu
      rw [set_self] at hj
      exact mem_of_mem_erase hj
    · rwa [set_of_ne _ _ hu] at hj
  · rw [set_proj Mine.locks G (m := (G.th t).dropRef i) rfl, ← h.lock, hlock]
  · rw [set_proj Mine.locks G (m := (G.th t).dropRef i) rfl] at hj
    by_cases hu : u = t
    · subst hu
      rw [set_self]
      have hji : j ≠ i := fun hc => hl (hc ▸ hj)
      exact (mem_erase_of_ne hji).mpr (h.lock_ref u j hj)
    · rw [set_of_ne _ _ hu]
      exact h.lock_ref u j hj
  · rw [set_proj Mine.full G (m := (G.th t).dropRef i) rfl] at hj
    rw [set_proj Mine.locks G (m := (G.th t).dropRef i) rfl, hvalid]
    exact h.full u j hj

/-- `bpin` and `bunpin`: the reference count of the buffer of `b` follows the list of pinned
blocks. -/
theorem CacheOk.repin {r : ℕ} (hi : Cached s b i)
    (hbc : s'.bc = (s.setBuf i fun x => { x with refcnt := r }).bc) (hrefs : s'.refs = s.refs)
    (hth : G'.th = G.th) (hmem : ∀ c, c ≠ b → (c ∈ pinned s' G' ↔ c ∈ pinned s G))
    (hr : r + (if b ∈ pinned s G then 1 else 0) =
      (s.bc.buf i).refcnt + if b ∈ pinned s' G' then 1 else 0) : CacheOk s' G' := by
  have hdev : ∀ j, (s'.bc.buf j).dev = (s.bc.buf j).dev := by
    rw [hbc]; exact setBuf_proj Buf.dev rfl
  have hblk : ∀ j, (s'.bc.buf j).blockno = (s.bc.buf j).blockno := by
    rw [hbc]; exact setBuf_proj Buf.blockno rfl
  refine h.of_refcnt (by rw [hbc]; rfl) hdev hblk (by rw [hbc]; exact setBuf_proj Buf.lock rfl)
    (by rw [hbc]; exact setBuf_proj Buf.valid rfl) hrefs hth fun j => ?_
  have hrc := h.refcnt j
  rw [pins, hdev, hblk]
  rw [pins] at hrc
  by_cases hji : j = i
  · subst hji
    have hr' : (s'.bc.buf j).refcnt = r := by rw [hbc, setBuf_self]
    simp only [hi.1, hi.2, true_and] at hrc ⊢
    omega
  · have hr' : (s'.bc.buf j).refcnt = (s.bc.buf j).refcnt := by rw [hbc, setBuf_of_ne _ _ _ hji]
    -- no other buffer caches `b`
    have hiff : (s.bc.buf j).dev = rootDev ∧ (s.bc.buf j).blockno ∈ pinned s' G' ↔
        (s.bc.buf j).dev = rootDev ∧ (s.bc.buf j).blockno ∈ pinned s G :=
      and_congr_right fun hd => hmem _ fun hb => hji (h.uniq b j i ⟨hd, hb⟩ hi)
    rw [hr', hrc]
    simp only [hiff]

/-- Moving a buffer to the front of the list. -/
theorem CacheOk.moveFront (i : BufId) :
    CacheOk { s with bc := { s.bc with links := (s.bc.links.unlink i).pushFront i } } G where
  ring := by
    obtain ⟨l, hl, hnd, hall⟩ := h.ring
    refine ⟨i :: l.erase i, hl.moveFront hnd (hall i), ?_, fun j => ?_⟩
    · exact nodup_cons.mpr ⟨hnd.not_mem_erase, hnd.erase i⟩
    · by_cases hji : j = i
      · simp [hji]
      · exact .tail _ ((mem_erase_of_ne hji).mpr (hall j))
  uniq := h.uniq
  refcnt := h.refcnt
  count := h.count
  blk := h.blk
  lock := h.lock
  lock_ref := h.lock_ref
  full := h.full

end Log

end TrinityXv6
