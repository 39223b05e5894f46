import TrinityXv6.Log.OpStep

/-!
# The code keeps the invariant

The program logic of `TrinityXv6.Lib.Threads` at the invariant of the block layer. Each function
of `bio.c` and `log.c` gets one lemma that says what it does to the view of the thread that runs
it; `commit`, recovery and the calls of the clients are then put together from those lemmas.

The logic comes in two strengths. With `r = none` a thread may wait, and may panic in the two ways
the source leaves open. With `r = some c`, for recovery of the durable contents `c`, it may do
neither.
-/

namespace TrinityXv6

namespace Log

open Threads
open Option
open List
open Ghost
open Function (update update_of_ne update_self)

/-! ## The buffers of a commit -/

section Buffers

variable {τ : Type} {P : Prop} {m : Mine τ} {i j : BufId} {b c : ℕ}

/-- What a thread knows after `bread` of block `b` returned buffer `i`. -/
def Mine.gets (m : Mine τ) (i : BufId) (b : ℕ) : Mine τ := ((m.addRef i b).addLock i).addFull i

/-- What a thread knows after `brelse` of buffer `i`. -/
def Mine.puts (m : Mine τ) (i : BufId) : Mine τ := (m.unlock i).dropRef i

/-- What the thread inside a commit or recovery knows between two rounds of its loops: it has
nothing modified, no bracket, and, if `P`, no buffers of its own. -/
structure Mine.Calm (P : Prop) (m : Mine τ) : Prop where
  full : ∀ i ∈ m.locks, i ∈ m.full
  dirt : m.dirt = []
  op : m.op = none
  sync : m.sync = none
  refs : P → m.refs = []
  locks : P → m.locks = []

theorem Mine.Calm.gets_puts (h : m.Calm P) : ((m.gets i b).puts i).Calm P where
  full k hk := by
    obtain ⟨hk, hne⟩ := mem_filter.mp hk
    refine mem_filter.mpr ⟨.tail _ (h.full k ?_), hne⟩
    exact (mem_cons.mp hk).resolve_left (by simpa using hne)
  dirt := h.dirt
  op := h.op
  sync := h.sync
  refs hP := by
    show (i :: m.refs).erase i = []
    rw [erase_cons_head, h.refs hP]
  locks hP := by
    show (i :: m.locks).filter (· ≠ i) = []
    simp [h.locks hP]

/-- Two buffers got and both released, in either order. -/
theorem Mine.Calm.gets_gets_puts_puts (h : m.Calm P) {x y : BufId}
    (hxy : x = i ∧ y = j ∨ x = j ∧ y = i) : ((((m.gets i b).gets j c).puts x).puts y).Calm P where
  full k hk := by
    obtain ⟨hk, hky⟩ := mem_filter.mp hk
    obtain ⟨hk, hkx⟩ := mem_filter.mp hk
    refine mem_filter.mpr ⟨mem_filter.mpr ⟨.tail _
      (.tail _ (h.full k ?_)), hkx⟩, hky⟩
    have hkx : k ≠ x := by simpa using hkx
    have hky : k ≠ y := by simpa using hky
    have hk : k = j ∨ k = i ∨ k ∈ m.locks := by simpa [gets, addRef, addLock, addFull] using hk
    rcases hxy with ⟨rfl, rfl⟩ | ⟨rfl, rfl⟩
    · exact (hk.resolve_left hky).resolve_left hkx
    · exact (hk.resolve_left hkx).resolve_left hky
  dirt := h.dirt
  op := h.op
  sync := h.sync
  refs hP := by
    show ((j :: i :: m.refs).erase x).erase y = []
    rw [h.refs hP]
    rcases hxy with ⟨rfl, rfl⟩ | ⟨rfl, rfl⟩
    · by_cases hij : y = x
      · simp [hij]
      · simp [hij]
    · simp
  locks hP := by
    show ((j :: i :: m.locks).filter (· ≠ x)).filter (· ≠ y) = []
    rw [h.locks hP]
    rcases hxy with ⟨rfl, rfl⟩ | ⟨rfl, rfl⟩ <;> simp [filter_cons]

/-- After a second `bread` the first buffer still caches its block. -/
theorem Mine.blk_gets_gets (hbc : b ≠ c) (hj : j ∈ (m.gets i b).refs → (m.gets i b).blk j = c) :
    ((m.gets i b).gets j c).blk i = b ∧ ((m.gets i b).gets j c).blk j = c := by
  have hne : i ≠ j := by
    rintro rfl
    have hupd : update m.blk i b i = c := hj (.head _)
    rw [update_self] at hupd
    exact hbc hupd
  refine ⟨?_, update_self ..⟩
  show update (update m.blk i b) j c i = b
  rw [update_of_ne hne, update_self]

end Buffers

/-! ## The logic -/

variable {τ : Type} [DecidableEq τ]

/-- What a thread sees of the ghost state. -/
abbrev View (τ : Type) := Mine τ × Option (Stage × Option BufId × LogHeader)

/-- When a thread may panic. `log_write` panics only when the log is full and lists the block
already; `commit`, alone on the buffer cache, runs out of buffers only when all of them are
pinned; and the counter of commits overflows only after `2 ^ 31 - 1` of them. -/
def MayHalt (R : Rules) (t : τ) (s : State τ) : Halt → Prop
  | .tooBig b => R.limit → s.log.lh.n = logBlocks ∧ b ∈ listed s.log.lh
  | .noBuffers => R.release → s.committer = some t → (∀ x ∈ s.refs, x.1 = t) → s.log.lh.n = nbuf
  | .overflow => 2 ^ 31 ≤ commits s.hist + 1
  | _ => False

/-- Recovery of the durable contents `c`, if `r = some c`, is not over. -/
def Recovers (d₀ : ℕ → Blk) (r : Option (ℕ → Blk)) (s : State τ) : Prop :=
  ∀ c, r = some c → s.up = false ∧ durable d₀ s.hist = c

/-- The program logic of the block layer. -/
def logic (start : ℕ) (d₀ : ℕ → Blk) (R : Rules) (r : Option (ℕ → Blk)) :
    Logic τ Chan Halt (State τ) (Ghost τ) (View τ) where
  inv s G := Inv start d₀ R s G ∧ Recovers d₀ r s
  view := view
  mayHalt t s _ e := r = none ∧ MayHalt R t s e
  mayWait _ _ _ _ := r = none

/-! ## Views -/

section Views

variable {G : Ghost τ} {t u : τ} {x : Option (Active τ)}

theorem Ghost.view_act_of_ne (hu : u ≠ t) (h : ∀ a, G.active = some a → a.thread = t)
    (hx : ∀ a, x = some a → a.thread = t) : (G.act x).view u = G.view u := by
  have hnone : ∀ y : Option (Active τ), (∀ a, y = some a → a.thread = t) →
      ((G.act y).view u).2 = none := by
    rintro (_ | a) hy
    · rfl
    · have : a.thread ≠ u := fun hc => hu (hc.symm.trans (hy a rfl))
      simp [view, act, this]
  exact congrArg (Prod.mk (G.th u)) ((hnone x hx).trans (hnone G.active h).symm)

theorem Ghost.view_act_of_active {a : Active τ} (hu : u ≠ t) (ha : G.active = some a)
    (hat : a.thread = t) (hx : ∀ a, x = some a → a.thread = t) : (G.act x).view u = G.view u := by
  refine view_act_of_ne hu (fun a' ha' => ?_) hx
  rw [ha] at ha'
  exact some.inj ha' ▸ hat

theorem Ghost.view_act_some (G : Ghost τ) (t : τ) (st : Stage) (mod : Option BufId)
    (lh : LogHeader) : (G.act (some ⟨t, st, mod, lh⟩)).view t = (G.th t, some (st, mod, lh)) := by
  simp [view, act]

theorem Ghost.view_act_none (G : Ghost τ) (t : τ) : (G.act none).view t = (G.th t, none) := rfl

end Views

section Spec

variable {start : ℕ} {d₀ : ℕ → Blk} {R : Rules} {r : Option (ℕ → Blk)} {t : τ} {g : View τ}
variable {s s' : State τ} {G : Ghost τ} {i : BufId} {β : Type} {mod : Option BufId} {lh : LogHeader}

/-- The thread of view `g` is the one inside a commit or recovery. -/
theorem active_of_view {st : Stage} (hv : G.view t = g)
    (hg : g.2 = some (st, mod, lh)) : G.active = some ⟨t, st, mod, lh⟩ :=
  view_snd_eq_some (by rw [hv, hg])

/-- An action that never waits: it completes, or stops for a reason it may have. -/
theorem safe_of_done_or_halt {f : τ → State τ → Out τ β} {Q : β → View τ → Prop}
    (h : ∀ s G, Inv start d₀ R s G → Recovers d₀ r s → G.view t = g → G.th t = g.1 →
      (∃ b s' w G', f t s = .done b s' w ∧ Inv start d₀ R s' G' ∧ Recovers d₀ r s' ∧
        (∀ u, u ≠ t → G'.view u = G.view u) ∧ Q b (G'.view t)) ∨
      ∃ e, f t s = .halt e ∧ r = none ∧ MayHalt R t s e) :
    Safe (logic start d₀ R r) t Q (.atomic f) g := by
  intro s G hI hv
  rcases h s G hI.1 hI.2 hv (congrArg Prod.fst hv) with
    ⟨b, s', w, G', hf, hI', hr', hu, hQ⟩ | ⟨e, hf, hm⟩
  · refine ⟨fun b' s'' w' he => ?_, fun c he => ?_, fun e he => ?_⟩
    · obtain ⟨rfl, rfl, rfl⟩ := Outcome.done.inj (hf.symm.trans he)
      exact ⟨G', ⟨hI', hr'⟩, hu, hQ⟩
    · cases hf.symm.trans he
    · cases hf.symm.trans he
  · refine ⟨fun b' s'' w' he => ?_, fun c he => ?_, fun e' he => ?_⟩
    · cases hf.symm.trans he
    · cases hf.symm.trans he
    · obtain rfl := Outcome.halt.inj (hf.symm.trans he)
      exact hm

/-- An action that always completes. -/
theorem safe_of_done {f : τ → State τ → Out τ β} {Q : β → View τ → Prop}
    (h : ∀ s G, Inv start d₀ R s G → Recovers d₀ r s → G.view t = g → G.th t = g.1 →
      ∃ b s' w G', f t s = .done b s' w ∧ Inv start d₀ R s' G' ∧ Recovers d₀ r s' ∧
        (∀ u, u ≠ t → G'.view u = G.view u) ∧ Q b (G'.view t)) :
    Safe (logic start d₀ R r) t Q (.atomic f) g :=
  safe_of_done_or_halt fun s G hI hr hv hth => .inl (h s G hI hr hv hth)

/-- The view after `bread` of block `b` returned buffer `i`, which the thread did not hold. -/
def Got (g : View τ) (b : ℕ) (i : BufId) (g' : View τ) : Prop :=
  g' = (g.1.gets i b, g.2) ∧ i ∉ g.1.locks ∧ (i ∈ g.1.refs → g.1.blk i = b)

/-! ## `bio.c` -/

/-- The critical section of `bget`. If the thread has a reference to the buffer already, it is one
to the same block. -/
theorem safe_bgetLocked {b : ℕ} (hu : g.1.live = true ∨ g.2 ≠ none)
    (hhalt : ∀ s G, Inv start d₀ R s G → G.view t = g → (∀ j, ¬ Cached s b j) →
      (∀ j, (s.bc.buf j).refcnt ≠ 0) → r = none ∧ MayHalt R t s .noBuffers) :
    Safe (logic start d₀ R r) t (fun i g' => g' = (g.1.addRef i b, g.2) ∧
      (i ∈ g.1.locks → i ∈ g.1.refs) ∧ (i ∈ g.1.refs → g.1.blk i = b))
      (.atomic (bgetLocked rootDev b)) g := by
  rintro s G ⟨hI, hr⟩ (hv : G.view t = g)
  have hth : G.th t = g.1 := congrArg Prod.fst hv
  have huses : G.Uses t := by
    refine hu.imp (fun hl => by rw [hth]; exact hl) fun hne => ?_
    obtain ⟨x, hx⟩ := ne_none_iff_exists'.mp hne
    exact ⟨_, active_of_view hv hx, rfl⟩
  have hcases := bgetLocked_cases hI.cache rootDev b t
  refine ⟨fun i s₁ w he => ?_, fun c he => ?_, fun e he => ?_⟩
  · have hI₁ := hI.bget huses he
    refine ⟨_, ⟨hI₁, ?_⟩, fun u hut => view_set_of_ne G _ hut, ?_, fun hi => ?_,
      fun hi => ?_⟩
    · rcases hcases with ⟨j, -, -, he'⟩ | ⟨-, j, -, he'⟩ | ⟨-, -, he'⟩
      · obtain ⟨-, rfl, -⟩ := Outcome.done.inj (he'.symm.trans he)
        exact hr
      · obtain ⟨-, rfl, -⟩ := Outcome.done.inj (he'.symm.trans he)
        exact hr
      · cases he'.symm.trans he
    · show (G.set t _).view t = _
      rw [view_set_self, hth, hv]
    · rw [← hth] at hi ⊢
      exact hI.cache.lock_ref t i hi
    · rw [← hth] at hi ⊢
      have hold := hI.cache.blk t i hi
      rcases hcases with ⟨j, hd, hbl, he'⟩ | ⟨-, j, h0, he'⟩ | ⟨-, -, he'⟩
      · obtain ⟨rfl, -, -⟩ := Outcome.done.inj (he'.symm.trans he)
        exact hold.2.symm.trans hbl
      · obtain ⟨rfl, -, -⟩ := Outcome.done.inj (he'.symm.trans he)
        exact absurd h0 (hI.cache.refcnt_pos hi).ne'
      · cases he'.symm.trans he
  · rcases hcases with ⟨j, -, -, he'⟩ | ⟨-, j, -, he'⟩ | ⟨-, -, he'⟩ <;> cases he'.symm.trans he
  · rcases hcases with ⟨j, -, -, he'⟩ | ⟨-, j, -, he'⟩ | ⟨hmiss, h0, he'⟩
    · cases he'.symm.trans he
    · cases he'.symm.trans he
    · obtain rfl := Outcome.halt.inj (he'.symm.trans he)
      exact hhalt s G hI hv hmiss h0

/-- `acquiresleep`. During recovery no other thread holds a lock. -/
theorem safe_acquiresleep (hi : i ∈ g.1.refs) (hwait : r ≠ none → g.2 ≠ none ∧ i ∉ g.1.locks) :
    Safe (logic start d₀ R r) t (fun _ g' => g' = (g.1.addLock i, g.2) ∧ i ∉ g.1.locks)
      (.atomic (acquiresleep i)) g := by
  rintro s G ⟨hI, hr⟩ (hv : G.view t = g)
  have hth : G.th t = g.1 := congrArg Prod.fst hv
  cases hl : (s.bc.buf i).lock with
  | none =>
    have he : acquiresleep i t s = .done () (s.setBuf i fun b => { b with lock := some t }) [] := by
      rw [acquiresleep, hl]
    refine ⟨fun b s' w he' => ?_, fun c he' => ?_, fun e he' => ?_⟩
    · obtain ⟨-, rfl, -⟩ := Outcome.done.inj (he.symm.trans he')
      refine ⟨_, ⟨hI.acquire hl (by rw [hth]; exact hi), hr⟩,
        fun u hut => view_set_of_ne G _ hut, ?_, fun hc => ?_⟩
      · show (G.set t _).view t = _
        rw [view_set_self, hth, hv]
      · rw [← hth, ← hI.cache.lock, hl] at hc
        cases hc
    · cases he.symm.trans he'
    · cases he.symm.trans he'
  | some u =>
    have he : acquiresleep i t s = .sleep (.buf i) := by rw [acquiresleep, hl]
    refine ⟨fun b s' w he' => ?_, fun c he' => ?_, fun e he' => ?_⟩
    · cases he.symm.trans he'
    · by_contra hrt
      obtain ⟨c, hc⟩ := ne_none_iff_exists'.mp hrt
      obtain ⟨hne, hnl⟩ := hwait hrt
      obtain ⟨x, hx⟩ := ne_none_iff_exists'.mp hne
      have hmem : i ∈ (G.th u).locks := (hI.cache.lock u i).mp hl
      by_cases hut : u = t
      · subst hut
        rw [hth] at hmem
        exact hnl hmem
      · have := hI.live.dead (hr c hc).1 _ (active_of_view hv hx) u hut
        have := hI.cache.lock_ref u i hmem
        simp_all
    · cases he.symm.trans he'

/-- The end of `bread`. -/
theorem safe_breadFill (hi : i ∈ g.1.locks) :
    Safe (logic start d₀ R r) t (fun _ g' => g' = (g.1.addFull i, g.2)) (.atomic (breadFill i))
      g := by
  refine safe_of_done fun s G hI hr hv hth => ?_
  refine ⟨(), _, [], _, rfl, hI.fill (by rw [hth]; exact hi), hr,
    fun u hut => view_set_of_ne G _ hut, ?_⟩
  rw [view_set_self, hth, hv]

/-- `bread`. The buffer is one the thread does not hold yet. -/
theorem safe_bread {b : ℕ} (hu : g.1.live = true ∨ g.2 ≠ none)
    (hhalt : ∀ s G, Inv start d₀ R s G → G.view t = g → (∀ j, ¬ Cached s b j) →
      (∀ j, (s.bc.buf j).refcnt ≠ 0) → r = none ∧ MayHalt R t s .noBuffers)
    (hwait : r ≠ none → g.2 ≠ none ∧ ∀ i ∈ g.1.locks, g.1.blk i ≠ b) :
    Safe (logic start d₀ R r) t (Got g b) (bread rootDev b) g := by
  rw [bread, bget]
  refine Safe.bind (Safe.bind (safe_bgetLocked hu hhalt) ?_ :
    Safe _ t (fun i g' => g' = ((g.1.addRef i b).addLock i, g.2) ∧ i ∉ g.1.locks ∧
      (i ∈ g.1.refs → g.1.blk i = b)) _ g) ?_
  · rintro i _ ⟨rfl, hl, hb⟩
    refine Safe.bind (safe_acquiresleep (.head _) fun hr => ⟨(hwait hr).1, fun hc => ?_⟩) ?_
    · exact (hwait hr).2 i hc (hb (hl hc))
    · rintro - _ ⟨rfl, hnl⟩
      exact ⟨rfl, hnl, hb⟩
  · rintro i _ ⟨rfl, hnl, hb⟩
    refine Safe.seq (safe_breadFill (.head _)) fun _ => ?_
    exact ⟨rfl, hnl, hb⟩

/-- `brelse`, of a buffer that is not still to be logged or written. -/
theorem safe_brelse (hi : i ∈ g.1.locks) (hdirt : i ∉ g.1.dirt)
    (hmod : ∀ st mod lh, g.2 = some (st, mod, lh) → mod ≠ some i) :
    Safe (logic start d₀ R r) t (fun _ g' => g' = (g.1.puts i, g.2)) (brelse i) g := by
  have hrel : Safe (logic start d₀ R r) t
      (fun _ g' => g' = (g.1.unlock i, g.2) ∧ i ∈ g.1.refs) (.atomic (releasesleep i)) g := by
    refine safe_of_done fun s G hI hr hv hth => ?_
    have hi' : i ∈ (G.th t).locks := by rw [hth]; exact hi
    have hlock := (hI.cache.lock t i).mpr hi'
    refine ⟨(), _, _, _, if_pos hlock, hI.release hi' (by rw [hth]; exact hdirt) ?_, hr,
      fun u hut => view_set_of_ne G _ hut, ?_, ?_⟩
    · intro a ha hm
      have hfull := (hI.cache.full _ i (hI.data.mod a i ha hm)).1
      have hat : a.thread = t := some.inj (((hI.cache.lock _ i).mpr hfull).symm.trans hlock)
      refine hmod a.stage a.mod a.lh ?_ hm
      rw [← hv, view, ha]
      exact if_pos hat
    · rw [view_set_self, hth, hv]
    · rw [← hth]
      exact hI.cache.lock_ref t i hi'
  refine Safe.bind hrel ?_
  rintro - _ ⟨rfl, href⟩
  refine safe_of_done fun s G hI hr hv hth => ?_
  have hdone : ∃ s' w, dropRef i t s = .done () s' w ∧ Recovers d₀ r s' := by
    rw [dropRef]
    split <;> exact ⟨_, _, rfl, hr⟩
  obtain ⟨s', w, he, hr'⟩ := hdone
  refine ⟨(), s', w, _, he, hI.dropRef (by rw [hth]; exact href) ?_ he,
    hr', fun u hut => view_set_of_ne G _ hut, ?_⟩
  · rw [hth]
    simp [Mine.unlock]
  · rw [view_set_self, hth, hv]
    rfl

/-- `commit` alone on the cache runs out of buffers only when all of them are pinned. -/
theorem mayHalt_noBuffers (hrefs : R.release → g.1.refs = [])
    (hI : Inv start d₀ R s G) (hv : G.view t = g) (h0 : ∀ j, (s.bc.buf j).refcnt ≠ 0) :
    MayHalt R t s .noBuffers := by
  intro hrel _ hall
  have hle := hI.cache.nbuf_le hall h0
  have hth : G.th t = g.1 := congrArg Prod.fst hv
  have hpin : (pinned s G).length ≤ s.log.lh.n := by simp [pinned, listed]
  have hn := hI.log.n_le
  rw [hth, hrefs hrel, length_nil] at hle
  have := nbuf_eq
  have := logBlocks_eq
  omega

/-- Recovery does not run out of buffers. -/
theorem not_noBuffers {st : Stage}
    (hg : g.2 = some (st, mod, lh)) (hrec : st.recovering = true) (hrefs : g.1.refs.length < nbuf)
    (hI : Inv start d₀ R s G) (hv : G.view t = g) : ¬ ∀ j, (s.bc.buf j).refcnt ≠ 0 := by
  intro h0
  have ha := active_of_view hv hg
  have hth : G.th t = g.1 := congrArg Prod.fst hv
  have hup : s.up = false := by rw [hI.up_eq ha, hrec]; rfl
  have hall : ∀ x ∈ s.refs, x.1 = t := by
    rintro ⟨u, i⟩ hx
    by_contra hut
    have := hI.live.dead hup _ ha u hut
    have hmem := hI.cache.of_mem_refs hx
    rw [this] at hmem
    cases hmem
  have hle := hI.cache.nbuf_le hall h0
  rw [hI.pinned_recovering ha hrec, hth, length_nil] at hle
  omega

/-! ## Steps of the thread inside a commit or recovery -/

section Active

variable {st st' : Stage} {mod mod' : Option BufId} {lh lh' : LogHeader} {k : ℕ}
  {es : List (Event τ)}

section

variable (hg : g.2 = some (st, mod, lh))
include hg

/-- An action that moves the commit or the recovery on. -/
theorem safe_active {f : τ → State τ → Out τ β} {p : β → Prop}
    (h : ∀ s G, Inv start d₀ R s G → G.th t = g.1 → G.active = some ⟨t, st, mod, lh⟩ →
      ∃ b s' w, f t s = .done b s' w ∧ (Recovers d₀ r s → Recovers d₀ r s') ∧ p b ∧
        Inv start d₀ R s' (G.act (some ⟨t, st', mod', lh'⟩))) :
    Safe (logic start d₀ R r) t (fun b g' => g' = (g.1, some (st', mod', lh')) ∧ p b)
      (.atomic f) g := by
  refine safe_of_done fun s G hI hr hv hth => ?_
  have ha := active_of_view hv hg
  obtain ⟨b, s', w, hf, hr', hp, hI'⟩ := h s G hI hth ha
  refine ⟨b, s', w, _, hf, hI', hr' hr, fun u hu => ?_, ?_, hp⟩
  · exact view_act_of_active hu ha rfl fun a ha' => (some.inj ha') ▸ rfl
  · rw [view_act_some, hth]

/-- `bwrite` of a buffer the thread has read. -/
theorem safe_bwrite (hi : i ∈ g.1.full) (hes : es = [] ∨ r = none)
    (h : ∀ s G, Inv start d₀ R s G → G.th t = g.1 → G.active = some ⟨t, st, mod, lh⟩ →
      Inv start d₀ R
        ({ s with disk := update s.disk (s.bc.buf i).blockno (s.bc.buf i).data }.note es)
        (G.act (some ⟨t, st', mod', lh'⟩))) :
    Safe (logic start d₀ R r) t (fun _ g' => g' = (g.1, some (st', mod', lh')))
      (bwrite i es) g := by
  refine (safe_active (p := fun _ => True) hg fun s G hI hth ha => ?_).mono fun _ _ h => h.1
  have hlock := (hI.cache.lock t i).mpr (hI.cache.full t i (by rw [hth]; exact hi)).1
  refine ⟨(), _, _, if_pos hlock, fun hr => ?_, trivial, h s G hI hth ha⟩
  rcases hes with rfl | rfl
  · exact hr
  · exact nofun

/-- Reading `log.lh.n`. -/
theorem safe_getN
    (hlh : ∀ s G, Inv start d₀ R s G → G.active = some ⟨t, st, mod, lh⟩ → s.log.lh = lh) :
    Safe (logic start d₀ R r) t (fun n g' => n = lh.n ∧ g' = g) getN g := by
  refine safe_of_done fun s G hI hr hv _ => ?_
  refine ⟨_, s, _, G, rfl, hI, hr, fun _ _ => rfl, ?_, hv⟩
  rw [hlh s G hI (active_of_view hv hg)]

/-- Reading `log.lh.block[k]`, which is the number of a home block. -/
theorem safe_getBlock (hk : k < lh.n)
    (hlh : ∀ s G, Inv start d₀ R s G → G.active = some ⟨t, st, mod, lh⟩ → s.log.lh = lh) :
    Safe (logic start d₀ R r) t
      (fun b g' => b = lh.block k ∧ g' = g ∧ lh.block k ≠ start + k + 1) (getBlock k) g := by
  refine safe_of_done fun s G hI hr hv _ => ?_
  have hs := hlh s G hI (active_of_view hv hg)
  refine ⟨_, s, _, G, rfl, hI, hr, fun _ _ => rfl, by rw [hs], hv, ?_⟩
  exact (hI.stage_lh hs hk).1.ne_log (hk.trans_le (hI.n_le hs))

/-! ## `commit` -/

variable {q : M τ Unit} {Q : Unit → View τ → Prop} {b cnt : ℕ}

/-- `bread` of a pinned block during a commit is a hit. -/
theorem safe_bread_pinned
    (hpin : ∀ s G, Inv start d₀ R s G → G.active = some ⟨t, st, mod, lh⟩ → b ∈ pinned s G) :
    Safe (logic start d₀ R none) t (Got g b) (bread rootDev b) g := by
  refine safe_bread (.inr (by rw [hg]; exact some_ne_none _)) (fun s G hI hv hmiss _ => ?_)
    fun hr => absurd rfl hr
  obtain ⟨j, hj, -⟩ := hI.data.pinnedBuf b (hpin s G hI (active_of_view hv hg))
  exact absurd hj (hmiss j)

/-- `bread` by a thread that has no other buffer during a commit. -/
theorem safe_bread_commit (hc : g.1.Calm R.release) :
    Safe (logic start d₀ R none) t (Got g b) (bread rootDev b) g :=
  safe_bread (.inr (by rw [hg]; exact some_ne_none _))
    (fun _ _ hI hv _ h0 => ⟨rfl, mayHalt_noBuffers hc.refs hI hv h0⟩) fun hr => absurd rfl hr

end

/-- `brelse` of a buffer that has just been written. -/
theorem safe_brelse_active (hi : i ∈ g.1.locks) (hdirt : g.1.dirt = [])
    (hg : g.2 = some (st, none, lh)) :
    Safe (logic start d₀ R r) t (fun _ g' => g' = (g.1.puts i, g.2)) (brelse i) g := by
  refine safe_brelse hi (by rw [hdirt]; exact not_mem_nil) fun st' mod' lh' hg' => ?_
  rw [hg] at hg'
  obtain ⟨-, rfl, -⟩ : st = st' ∧ none = mod' ∧ lh = lh' := by simpa using hg'
  exact some_ne_none _ ∘ Eq.symm

/-! ### Rounds

The loops of `write_log` and of `install_trans` go through the logged blocks. A round reads the
block of the log and the home block, copies one to the other, and releases both. -/

/-- The reading half of a round: `body` gets the buffers of the two blocks. -/
theorem safe_round {body : BufId → BufId → M τ Unit} (hg : g.2 = some (st, none, lh))
    (hk : k < lh.n)
    (hlh : ∀ s G, Inv start d₀ R s G → G.active = some ⟨t, st, none, lh⟩ → s.log.lh = lh)
    (hlog : Safe (logic start d₀ R r) t (Got g (start + k + 1)) (bread rootDev (start + k + 1)) g)
    (hhome : ∀ l, lh.block k ≠ start + k + 1 →
      Safe (logic start d₀ R r) t
        (Got (g.1.gets l (start + k + 1), some (st, none, lh)) (lh.block k))
        (bread rootDev (lh.block k)) (g.1.gets l (start + k + 1), some (st, none, lh)))
    (hbody : ∀ l d m, m = (g.1.gets l (start + k + 1)).gets d (lh.block k) → l ≠ d → l ∈ m.full →
      d ∈ m.full → m.blk l = start + k + 1 → m.blk d = lh.block k →
      Safe (logic start d₀ R r) t Q (body l d) (m, some (st, none, lh))) :
    Safe (logic start d₀ R r) t Q (do
      let l ← bread rootDev (start + k + 1)
      let b ← getBlock k
      let d ← bread rootDev b
      body l d) g := by
  obtain ⟨m, _⟩ := g
  obtain rfl : _ = some _ := hg
  refine Safe.bind hlog ?_
  rintro l _ ⟨rfl, -, -⟩
  refine Safe.bind (safe_getBlock rfl hk hlh) ?_
  rintro b _ ⟨rfl, rfl, hne⟩
  refine Safe.bind (hhome l hne) ?_
  rintro d _ ⟨rfl, hnd, hb⟩
  obtain ⟨hbl, hbd⟩ := Mine.blk_gets_gets hne.symm hb
  refine hbody l d _ rfl ?_ (.tail _ (.head _)) (.head _) hbl hbd
  rintro rfl
  exact hnd (.head _)

/-- The releasing half of a round, in either order. -/
theorem safe_release {P : Prop} {m : Mine τ} {j x y : BufId} {c : ℕ} (hc : m.Calm P) (hij : i ≠ j)
    (hxy : x = i ∧ y = j ∨ x = j ∧ y = i)
    (hq : ∀ g' : View τ, g'.1.Calm P → g'.2 = some (st, none, lh) →
      Safe (logic start d₀ R r) t Q q g') :
    Safe (logic start d₀ R r) t Q (do
      brelse x
      brelse y
      q) ((m.gets i b).gets j c, some (st, none, lh)) := by
  have hx : x ∈ ((m.gets i b).gets j c).locks := by
    rcases hxy with ⟨rfl, -⟩ | ⟨rfl, -⟩
    · exact .tail _ (.head _)
    · exact .head _
  have hy : y ∈ (((m.gets i b).gets j c).puts x).locks := by
    rcases hxy with ⟨rfl, rfl⟩ | ⟨rfl, rfl⟩
    · exact mem_filter.mpr ⟨.head _, by simpa using hij.symm⟩
    · exact mem_filter.mpr ⟨.tail _ (.head _), by simpa using hij⟩
  refine Safe.seq (safe_brelse_active hx hc.dirt rfl) fun _ => ?_
  refine Safe.seq (safe_brelse_active hy hc.dirt rfl) fun _ => ?_
  exact hq _ (hc.gets_gets_puts_puts hxy) rfl

/-- A loop over the logged blocks, from its rounds: round `k` moves from `stage k` on. -/
theorem safe_rounds {P : Prop} {stage : ℕ → Stage} {loop : ℕ → ℕ → M τ Unit}
    (hlh : ∀ s G, Inv start d₀ R s G → G.active = some ⟨t, stage 0, none, lh⟩ → s.log.lh = lh)
    (hdone : ∀ k, loop k 0 = pure ())
    (hround : ∀ k cnt (g : View τ) (Q : Unit → View τ → Prop), g.2 = some (stage k, none, lh) →
      g.1.Calm P → k < lh.n →
      (∀ g' : View τ, g'.1.Calm P → g'.2 = some (stage (k + 1), none, lh) →
        Safe (logic start d₀ R r) t Q (loop (k + 1) cnt) g') →
      Safe (logic start d₀ R r) t Q (loop k (cnt + 1)) g)
    (hg : g.2 = some (stage 0, none, lh)) (hc : g.1.Calm P) :
    Safe (logic start d₀ R r) t (fun _ g' => g'.1.Calm P ∧ g'.2 = some (stage lh.n, none, lh)) (do
      let n ← getN
      loop 0 n) g := by
  have hfrom : ∀ cnt k (g : View τ), k + cnt = lh.n → g.2 = some (stage k, none, lh) →
      g.1.Calm P → Safe (logic start d₀ R r) t
        (fun _ g' => g'.1.Calm P ∧ g'.2 = some (stage lh.n, none, lh)) (loop k cnt) g := by
    intro cnt
    induction cnt with
    | zero =>
      rintro k g rfl hg hc
      rw [hdone]
      exact ⟨hc, hg⟩
    | succ cnt ih =>
      intro k g hk hg hc
      exact hround k cnt g _ hg hc (by omega) fun g' hc' hg' => ih (k + 1) g' (by omega) hg' hc'
  refine Safe.bind (safe_getN hg hlh) ?_
  rintro n _ ⟨rfl, rfl⟩
  exact hfrom _ 0 _ (Nat.zero_add _) hg hc

theorem lh_wlog (hI : Inv start d₀ R s G) (ha : G.active = some ⟨t, .wlog k, mod, lh⟩) :
    s.log.lh = lh :=
  (hI.disk.stage _ ha).1

/-- `write_log` -/
theorem safe_writeLog (hg : g.2 = some (.wlog 0, none, lh)) (hc : g.1.Calm R.release) :
    Safe (logic start d₀ R none) t
      (fun _ g' => g'.1.Calm R.release ∧ g'.2 = some (.wlog lh.n, none, lh))
      (writeLog start) g := by
  refine safe_rounds (fun s G hI ha => lh_wlog hI ha) (fun _ => rfl)
    (fun k cnt g Q hg hc hk hq => ?_) hg hc
  refine safe_round hg hk (fun s G hI ha => lh_wlog hI ha) (safe_bread_commit hg hc)
    (fun dst _ => safe_bread_pinned rfl fun s G hI ha => ?_) ?_
  · rw [pinned, skip_eq ha, lh_wlog hI ha]
    exact listed_block hk
  rintro dst src m rfl hne hd hs hbd hbs
  refine Safe.bind (safe_active (p := fun _ => True) rfl fun s G hI hth ha =>
    ⟨(), _, _, rfl, id, trivial, hI.copy_log ha hk (by rw [hth]; exact hd) (by rw [hth]; exact hs)
      (by rw [hth]; exact hbd) (by rw [hth]; exact hbs)⟩) ?_
  rintro - _ ⟨rfl, -⟩
  refine Safe.bind (safe_bwrite rfl hd (.inl rfl) fun s G hI _ ha => hI.write_logBlock ha hk) ?_
  rintro - _ rfl
  exact safe_release hc hne (.inr ⟨rfl, rfl⟩) hq

/-- `write_head`, with what filling and what writing the header block mean. -/
theorem safe_writeHead (hg : g.2 = some (st, none, lh)) (hdirt : g.1.dirt = [])
    (hes : es = [] ∨ r = none)
    (hbread : Safe (logic start d₀ R r) t (Got g start) (bread rootDev start) g)
    (hfill : ∀ s G i, Inv start d₀ R s G → G.active = some ⟨t, st, none, lh⟩ →
      i ∈ (G.th t).full → (G.th t).blk i = start → Inv start d₀ R
        ((s.setBuf i fun b => { b with data := putHead s.log.lh (s.bc.buf i).data s.log.lh.n }).note
          [.head (s.bc.buf i).blockno (putHead s.log.lh (s.bc.buf i).data s.log.lh.n)])
        (G.act (some ⟨t, st, some i, lh⟩)))
    (hwrite : ∀ s G i, Inv start d₀ R s G → G.active = some ⟨t, st, some i, lh⟩ →
      Inv start d₀ R
        ({ s with disk := update s.disk (s.bc.buf i).blockno (s.bc.buf i).data }.note es)
        (G.act (some ⟨t, st', none, lh⟩))) :
    Safe (logic start d₀ R r) t
      (fun _ g' => ∃ i, g' = ((g.1.gets i start).puts i, some (st', none, lh)))
      (writeHead start es) g := by
  obtain ⟨m, _⟩ := g
  obtain rfl : _ = some _ := hg
  refine Safe.bind hbread ?_
  rintro i _ ⟨rfl, -, -⟩
  refine Safe.bind (safe_active (p := fun _ => True) rfl fun s G hI hth ha =>
    ⟨(), _, _, rfl, id, trivial, hfill s G i hI ha (by rw [hth]; exact (.head _))
      (by rw [hth]; exact update_self ..)⟩) ?_
  rintro - _ ⟨rfl, -⟩
  refine Safe.seq (safe_bwrite rfl (.head _) hes fun s G hI _ ha => hwrite s G i hI ha) fun _ => ?_
  refine Safe.mono (safe_brelse_active (.head _) hdirt rfl) ?_
  rintro - _ rfl
  exact ⟨i, rfl⟩

theorem lh_inst (hI : Inv start d₀ R s G) (ha : G.active = some ⟨t, .inst k, mod, lh⟩) :
    s.log.lh = lh :=
  (hI.disk.stage _ ha).1

/-- `install_trans` at the end of a commit. -/
theorem safe_installTrans (hg : g.2 = some (.inst 0, none, lh)) (hc : g.1.Calm R.release) :
    Safe (logic start d₀ R none) t
      (fun _ g' => g'.1.Calm R.release ∧ g'.2 = some (.inst lh.n, none, lh))
      (installTrans start false) g := by
  refine safe_rounds (fun s G hI ha => lh_inst hI ha) (fun _ => rfl)
    (fun k cnt g Q hg hc hk hq => ?_) hg hc
  refine safe_round hg hk (fun s G hI ha => lh_inst hI ha) (safe_bread_commit hg hc)
    (fun lbuf _ => safe_bread_pinned rfl fun s G hI ha => ?_) ?_
  · rw [pinned, skip_eq ha, lh_inst hI ha]
    show lh.block k ∈ (listed lh).drop k
    rw [listed_drop hk]
    exact .head _
  rintro lbuf dbuf m rfl hne hl hd hbl hbd
  have hcopy : Safe (logic start d₀ R none) t (fun _ g' => g' = (_, some (.inst k, none, lh)))
      (memmove dbuf lbuf .install) (_, some (.inst k, none, lh)) :=
    safe_of_done fun s G hI hr hv hth =>
      ⟨(), _, _, G, rfl, hI.copy_install (active_of_view hv rfl) hk (hth ▸ hd) (hth ▸ hl)
        (hth ▸ hbd) (hth ▸ hbl), hr, fun _ _ => rfl, hv⟩
  refine Safe.seq hcopy fun _ => ?_
  refine Safe.bind (safe_bwrite rfl hd (.inl rfl) fun s G hI hth ha =>
    hI.write_install ha hk (by rw [hth]; exact hd) (by rw [hth]; exact hbd)) ?_
  rintro - _ rfl
  refine Safe.bind (safe_active (p := fun _ => True) rfl fun s G hI hth ha =>
    ⟨(), _, _, rfl, id, trivial, hI.unpin ha (by rw [hth]; exact hd) (by rw [hth]; exact hbd)⟩) ?_
  rintro - _ ⟨rfl, -⟩
  exact safe_release hc hne (.inl ⟨rfl, rfl⟩) hq

/-- `log.lh.n = 0`, with every home block in its place. -/
theorem safe_clearN (hg : g.2 = some (st, none, lh)) (hunp : (⟨t, st, none, lh⟩ : Active τ).unpins =
      (⟨t, .clear st.recovering, none, lh⟩ : Active τ).unpins)
    (h : ∀ s G, Inv start d₀ R s G → G.active = some ⟨t, st, none, lh⟩ →
      pinned s G = [] ∧ ∀ b, Home start b → s.disk b = durable d₀ s.hist b) :
    Safe (logic start d₀ R r) t (fun _ g' => g' = (g.1, some (.clear st.recovering, none, lh)))
      clearN g := by
  refine Safe.mono (safe_active (p := fun _ => True) hg fun s G hI hth ha => ?_) fun _ _ h => h.1
  obtain ⟨hpin, hdisk⟩ := h s G hI ha
  exact ⟨(), _, _, rfl, id, trivial, hI.clear ha hpin rfl rfl hunp hdisk⟩

/-- **`commit`** -/
theorem safe_commit (hg : g.2 = some (.wlog 0, none, lh)) (hc : g.1.Calm R.release) :
    Safe (logic start d₀ R none) t
      (fun _ g' => g'.1.Calm R.release ∧ g'.2 = some (.fin false, none, lh)) (commit start) g := by
  have hget : Safe (logic start d₀ R none) t (fun n g' => n = lh.n ∧
      g' = (g.1, some (if 0 < n then (.wlog 0, none, lh) else (.fin false, none, lh)))) getN g := by
    refine safe_of_done fun s G hI hr hv _ => ?_
    have ha := active_of_view hv hg
    have hlh := lh_wlog hI ha
    by_cases hn : 0 < s.log.lh.n
    · refine ⟨_, s, _, G, rfl, hI, hr, fun _ _ => rfl, by rw [hlh], ?_⟩
      rw [hv, if_pos hn, ← hg]
    · refine ⟨_, s, _, _, rfl, hI.noCommit ha (by omega), hr, fun u hu => ?_, by rw [hlh], ?_⟩
      · exact view_act_of_active hu ha rfl fun a ha' => (some.inj ha') ▸ rfl
      · rw [view_act_some, if_neg hn, show G.th t = g.1 from congrArg Prod.fst hv]
  refine Safe.bind hget ?_
  rintro n _ ⟨rfl, rfl⟩
  by_cases hn : 0 < lh.n
  · rw [if_pos hn, if_pos hn]
    refine Safe.bind (safe_writeLog rfl hc) ?_
    rintro - ⟨m, _⟩ ⟨hc, rfl⟩
    refine Safe.bind (safe_writeHead rfl hc.dirt (.inr rfl) (safe_bread_commit rfl hc)
      (fun s G i hI ha hi hb => hI.fill_commit ha hi hb)
      fun s G i hI ha => hI.write_commitPoint ha) ?_
    rintro - _ ⟨i, rfl⟩
    refine Safe.bind (safe_installTrans rfl hc.gets_puts) ?_
    rintro - ⟨m, _⟩ ⟨hc, rfl⟩
    refine Safe.seq (safe_clearN rfl rfl fun s G hI ha => hI.disk_installed ha) fun _ => ?_
    refine Safe.mono (safe_writeHead rfl hc.dirt (.inl rfl) (safe_bread_commit rfl hc)
      (fun s G i hI ha hi hb => hI.fill_clear ha hi hb) fun s G i hI ha => hI.write_clear ha) ?_
    rintro - _ ⟨i, rfl⟩
    exact ⟨hc.gets_puts, rfl⟩
  · rw [if_neg hn, if_neg hn]
    exact ⟨hc, rfl⟩

/-! ## Recovery -/

/-- `bread` during recovery: no thread but this one uses the cache. -/
theorem safe_bread_recovery (hg : g.2 = some (st, mod, lh)) (hrec : st.recovering = true)
    (hrefs : g.1.refs.length < nbuf) (hlocks : ∀ i ∈ g.1.locks, g.1.blk i ≠ b) :
    Safe (logic start d₀ R r) t (Got g b) (bread rootDev b) g := by
  have hne : g.2 ≠ none := by rw [hg]; exact some_ne_none _
  exact safe_bread (.inr hne) (fun s G hI hv _ h0 => absurd h0 (not_noBuffers hg hrec hrefs hI hv))
    fun _ => ⟨hne, hlocks⟩

/-- The first `bread` of a round. -/
theorem safe_bread_calm (hg : g.2 = some (st, mod, lh)) (hrec : st.recovering = true)
    (hc : g.1.Calm True) : Safe (logic start d₀ R r) t (Got g b) (bread rootDev b) g := by
  refine safe_bread_recovery hg hrec ?_ fun i hi => ?_
  · rw [hc.refs trivial]
    decide
  · rw [hc.locks trivial] at hi
    cases hi

/-- `read_head` -/
theorem safe_readHead (hg : g.2 = some (.rhead, none, lh)) (hc : g.1.Calm True) :
    Safe (logic start d₀ R r) t
      (fun _ g' => g'.1.Calm True ∧ ∃ lh', g'.2 = some (.rinst 0, none, lh'))
      (readHead start) g := by
  obtain ⟨m, _⟩ := g
  obtain rfl : _ = some _ := hg
  refine Safe.bind (safe_bread_calm rfl rfl hc) ?_
  rintro i _ ⟨rfl, -, -⟩
  have hi : i ∈ (m.gets i start).full := (.head _)
  have hb : (m.gets i start).blk i = start := update_self ..
  have hload : Safe (logic start d₀ R r) t
      (fun _ g' => ∃ lh', g' = (m.gets i start, some (.rinst 0, none, lh'))) (loadHead i)
      (m.gets i start, some (.rhead, none, lh)) := by
    refine safe_of_done fun s G hI hr hv (hth : G.th t = m.gets i start) => ?_
    have ha := active_of_view hv rfl
    have hhead := hI.head_eq ha (hth ▸ hi) (hth ▸ hb)
    have hle : headN (s.bc.buf i).data ≤ logBlocks := hhead ▸ hI.disk.recoverable.n_le
    refine ⟨(), _, _, _, if_pos hle, hI.load ha (hth ▸ hi) (hth ▸ hb), hr, fun u hu => ?_,
      _, by rw [view_act_some, hth]⟩
    exact view_act_of_active hu ha rfl fun a ha' => (some.inj ha') ▸ rfl
  refine Safe.bind hload ?_
  rintro - _ ⟨lh', rfl⟩
  refine Safe.mono (safe_brelse_active (.head _) hc.dirt rfl) ?_
  rintro - _ rfl
  exact ⟨hc.gets_puts, lh', rfl⟩

theorem lh_rinst (hI : Inv start d₀ R s G) (ha : G.active = some ⟨t, .rinst k, mod, lh⟩) :
    s.log.lh = lh :=
  (hI.disk.stage _ ha).1

/-- `install_trans` in recovery. -/
theorem safe_replay (hg : g.2 = some (.rinst 0, none, lh)) (hc : g.1.Calm True) :
    Safe (logic start d₀ R r) t (fun _ g' => g'.1.Calm True ∧ g'.2 = some (.rinst lh.n, none, lh))
      (installTrans start true) g := by
  refine safe_rounds (fun s G hI ha => lh_rinst hI ha) (fun _ => rfl)
    (fun k cnt g Q hg hc hk hq => ?_) hg hc
  refine safe_round hg hk (fun s G hI ha => lh_rinst hI ha) (safe_bread_calm hg rfl hc)
    (fun lbuf hne => safe_bread_recovery rfl rfl ?_ fun i hi => ?_) ?_
  · show (lbuf :: g.1.refs).length < nbuf
    rw [hc.refs trivial, length_singleton]
    decide
  · have hi : i ∈ lbuf :: g.1.locks := hi
    rw [hc.locks trivial, mem_singleton] at hi
    subst hi
    show update g.1.blk i (start + k + 1) i ≠ lh.block k
    rw [update_self]
    exact hne.symm
  rintro lbuf dbuf m rfl hne hl hd hbl hbd
  refine Safe.bind (safe_active (p := fun _ => True) rfl fun s G hI hth ha =>
    ⟨(), _, _, rfl, id, trivial, hI.copy_replay ha hk (by rw [hth]; exact hd)
      (by rw [hth]; exact hl) (by rw [hth]; exact hbd) (by rw [hth]; exact hbl)⟩) ?_
  rintro - _ ⟨rfl, -⟩
  refine Safe.seq (safe_bwrite rfl hd (.inl rfl) fun s G hI _ ha => hI.write_replay ha) fun _ => ?_
  exact safe_release hc hne (.inl ⟨rfl, rfl⟩) hq

/-- **`recover_from_log`** -/
theorem safe_recoverFromLog (hg : g.2 = some (.rhead, none, lh)) (hc : g.1.Calm True) :
    Safe (logic start d₀ R r) t
      (fun _ g' => g'.1.Calm True ∧ ∃ lh', g'.2 = some (.fin true, none, lh'))
      (recoverFromLog start) g := by
  refine Safe.bind (safe_readHead hg hc) ?_
  rintro - ⟨m, _⟩ ⟨hc, lh', rfl⟩
  refine Safe.bind (safe_replay rfl hc) ?_
  rintro - ⟨m, _⟩ ⟨hc, rfl⟩
  refine Safe.bind (safe_clearN rfl rfl fun s G hI ha =>
    ⟨hI.pinned_recovering ha rfl, fun b hb => hI.disk_replayed ha hb⟩) ?_
  rintro - _ rfl
  refine Safe.mono (safe_writeHead rfl hc.dirt (.inl rfl) (safe_bread_calm rfl rfl hc)
    (fun s G i hI ha hi hb => hI.fill_clear ha hi hb) fun s G i hI ha => hI.write_clear ha) ?_
  rintro - _ ⟨i, rfl⟩
  exact ⟨hc.gets_puts, lh', rfl⟩

end Active

end Spec

end Log

end TrinityXv6
