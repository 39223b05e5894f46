import TrinityXv6.Heap.Ring

/-!
# The user heap is sound

Free and live blocks together are exactly the memory that `sbrk` has returned, in every state that a
program can reach, and what `malloc` returns overlaps nothing that the program has.

Sizes are 32-bit numbers of units. Nothing keeps a block that is joined from free ones below that
size, so all this holds as long as the memory obtained is less than `2 ^ 36` bytes, and no longer
(`user_heap_overflow`): a program that obtains more, and gives it all back, loses most of it.

## Main definitions

* `State.Represents` — memory holds an arena, and the arena is what `sbrk` has returned
* `Inv` — the invariant

## Main results

* `State.Represents.free`, `State.Represents.mallocFrom` — the functions keep the account
* `State.Represents.mallocFrom_isSome` — the search of `malloc` ends
* `user_heap` — the heap is sound in every state that a program reaches
-/

namespace TrinityXv6

namespace Heap

open Extents Extent Links
open Option
open List

namespace State

variable {L : Layout} {A : Arena} {s s' : State} {a b : Extent} {q r prevp : ℕ} {n : UInt32}

/-! ## What the functions leave alone -/

/-- Everything but the headers and `freep`. -/
structure Same (s s' : State) : Prop where
  stop : s'.stop = s.stop
  chunks : s'.chunks = s.chunks
  live : s'.live = s.live

theorem Same.trans {s'' : State} (h : Same s s') (h' : Same s' s'') : Same s s'' :=
  ⟨h'.stop.trans h.stop, h'.chunks.trans h.chunks, h'.live.trans h.live⟩

theorem Same.obtained (h : Same s s') : s'.obtained = s.obtained := by
  rw [State.obtained, State.obtained, h.chunks]

theorem join_same (s : State) (x q : ℕ) : Same s (s.join x q) := by
  rw [join]
  split
  · exact ⟨rfl, rfl, rfl⟩
  · exact ⟨rfl, rfl, rfl⟩

theorem linkIn_same (s : State) (x q : ℕ) : Same s (s.linkIn x q) :=
  have h := (join_same s x (s.ptr q)).trans (join_same _ q x)
  ⟨h.stop, h.chunks, h.live⟩

theorem take_same (s : State) (n : UInt32) (prevp p : ℕ) : Same s (s.take n prevp p).2 := by
  rw [take]
  split
  · exact ⟨rfl, rfl, rfl⟩
  · exact ⟨rfl, rfl, rfl⟩

theorem got_of_block (h : s.block b.addr = b) :
    s.got (b.addr + unit) = ⟨s.hdr, s.freep, s.stop, s.chunks, b :: s.live⟩ := by
  rw [got, if_neg (show b.addr + unit ≠ 0 from Nat.succ_ne_zero _), Nat.add_sub_cancel, h]

/-! ## New memory -/

/-- New memory, with the header of a block. -/
def more (s : State) (nu : UInt32) (g : ℕ) : State :=
  { s.set (s.stop + g) ⟨s.ptr (s.stop + g), nu⟩ with
    stop := s.stop + g + nu.toNat * unit
    chunks := ⟨s.stop + g, nu.toNat * unit⟩ :: s.chunks }

/-- The number of units that `morecore` asks for. -/
def request (nu : UInt32) : UInt32 := if nu < 4096 then 4096 else nu

theorem morecore_eq (s : State) (fuel : ℕ) (nu : UInt32) (g : ℕ) : s.morecore fuel nu (some g) =
      ((s.more (request nu) g).free fuel (s.stop + g + unit)).map fun s => (s.freep, s) := rfl

theorem request_toNat (nu : UInt32) : (request nu).toNat = max 4096 nu.toNat := by
  rw [request]
  split
  · next h => exact (max_eq_left (show nu.toNat ≤ 4096 from le_of_lt h)).symm
  · next h => exact (max_eq_right (show 4096 ≤ nu.toNat from not_lt.mp h)).symm

/-! ## The account -/

/-- Memory holds the blocks of an arena, which are the memory that `sbrk` has returned. -/
structure Represents (L : Layout) (s : State) (A : Arena) : Prop where
  mem : Mem L s A
  live : s.live = A.live
  tiles : ∀ x, Covered s.chunks x ↔ Covered A.all x
  counts : s.obtained = total A.all
  below : ∀ x, Covered s.chunks x → x < s.stop
  stop : L.base + unit ≤ s.stop

namespace Represents

variable (h : Represents L s A)
include h

theorem fin_le (ha : a ∈ A.all) : a.fin ≤ s.stop := by
  have hpos := A.pos a ha
  have hfin : a.fin = a.addr + a.len := rfl
  have := h.below (a.fin - 1) ((h.tiles _).mpr ⟨a, ha, by omega, by omega⟩)
  omega

theorem freep_ne_zero : s.freep ≠ 0 := by
  obtain ⟨a, ha, heq⟩ := mem_map.mp h.mem.freep
  have := h.mem.base_le ha
  have := L.base_pos
  omega

/-- Blocks move between the program and the free list. -/
theorem move {A' : Arena} (hmem : Mem L s' A') (hlive : s'.live = A'.live)
    (hstop : s'.stop = s.stop) (hchunks : s'.chunks = s.chunks)
    (hcov : ∀ x, Covered A'.all x ↔ Covered A.all x) (htotal : total A'.all = total A.all) :
    Represents L s' A' := by
  refine ⟨hmem, hlive, fun x => ?_, ?_, fun x hx => ?_, ?_⟩
  · rw [hchunks, h.tiles, hcov]
  · rw [htotal, ← h.counts, obtained, obtained, hchunks]
  · rw [hstop]
    exact h.below x (hchunks ▸ hx)
  · rw [hstop]
    exact h.stop

omit h in
/-- A block that is taken out of the account of the program, for a moment. -/
theorem drop (h : Mem L s A) (b : Extent) : Mem L s (A.drop b) where
  holds := h.holds
  freep := h.freep
  sized c hc := h.sized c (mem_of_mem_erase hc)
  above c hc := by
    rcases mem_append.mp hc with hc | hc
    · exact h.above c (mem_append_left _ hc)
    · exact h.above c (mem_append_right _ (mem_of_mem_erase hc))

/-- **`free`** gives a block back. -/
theorem free {fuel : ℕ} (hb : b ∈ A.live) (hroom : s.obtained < 2 ^ 36)
    (hfree : s.free fuel (b.addr + unit) = some s') :
    Represents L (s'.gone b) (A.release b hb) := by
  rw [State.free, Nat.add_sub_cancel] at hfree
  obtain ⟨q, hfind, rfl⟩ := map_eq_some_iff.mp hfree
  have hsame := linkIn_same s b.addr q
  have hall : b ∈ A.all := mem_append_right _ hb
  have htotal : b.len + total (A.drop b).all = total A.all := by
    rw [Arena.total_perm (Arena.drop_perm hb), total_cons]
  have hmem := (drop h.mem b).linkIn (A.pos_live hb) (Arena.apart_of_mem_drop hb)
    (h.mem.sized b hb) (h.mem.above b hall) (by rw [htotal, ← h.counts]; exact hroom) hfind
  refine h.move (hmem.congr (fun _ _ => rfl) (fun _ _ => rfl) rfl) ?_ hsame.stop hsame.chunks
    (fun x => Arena.covered_release hb) (Arena.total_release hb)
  show (s.linkIn b.addr q).live.erase b = A.live.erase b
  rw [hsame.live, h.live]

theorem mem_more (nu : UInt32) (g : ℕ) : Mem L (more s nu g) A := by
  have hne : ∀ a ∈ A.all, a.addr ≠ s.stop + g := fun a ha => by
    have := h.fin_le ha
    have := A.pos a ha
    have hfin : a.fin = a.addr + a.len := rfl
    omega
  refine h.mem.congr (fun a ha => set_hdr_of_ne _ ?_)
    (fun a ha => set_hdr_of_ne _ (hne a (mem_append_right _ ha))) rfl
  rcases mem_cons.mp ha with rfl | ha
  · have : L.base + 16 ≤ s.stop := h.stop
    show L.base ≠ _
    omega
  · exact hne a (mem_append_left _ ha)

/-- **`morecore`** adds the new memory to the free memory. -/
theorem morecore {fuel g : ℕ} {nu : UInt32} (hrun : s.morecore fuel nu (some g) = some (r, s'))
    (hroom : s'.obtained < 2 ^ 36) : r = s'.freep ∧ ∃ A', Represents L s' A' ∧ A'.live = A.live ∧
      A'.free.length ≤ A.free.length + 1 ∧ ∃ c ∈ A'.free, unit * (request nu).toNat ≤ c.len := by
  rw [morecore_eq, State.free, Nat.add_sub_cancel] at hrun
  obtain ⟨t, ht, heq⟩ := map_eq_some_iff.mp hrun
  obtain ⟨q, hfind, rfl⟩ := map_eq_some_iff.mp ht
  obtain ⟨rfl, rfl⟩ := Prod.mk.inj heq
  have hsame := linkIn_same (more s (request nu) g) (s.stop + g) q
  have hnu : 4096 ≤ (request nu).toNat := request_toNat nu ▸ le_max_left ..
  let b : Extent := ⟨s.stop + g, (request nu).toNat * unit⟩
  have hpos : 0 < b.len := Nat.mul_pos (by omega) (by decide)
  have hnew : ∀ a ∈ A.all, a.Apart b := fun a ha =>
    apart_of_le ((h.fin_le ha).trans (Nat.le_add_right ..))
  have hobt : (more s (request nu) g).obtained = b.len + total A.all := by
    rw [← h.counts]
    rfl
  rw [hsame.obtained, hobt] at hroom
  have hblock : (more s (request nu) g).block b.addr = b := by
    have : (more s (request nu) g).block b.addr = ⟨s.stop + g, unit * (request nu).toNat⟩ :=
      block_set ..
    rw [this, Nat.mul_comm]
  have hmem := (h.mem_more (request nu) g).linkIn hpos hnew hblock
    (h.stop.trans (Nat.le_add_right ..)) hroom hfind
  refine ⟨rfl, A.grow b hpos hnew, ⟨hmem, ?_, fun x => ?_, ?_, fun x hx => ?_, ?_⟩, rfl,
    length_place_le b A.free, ?_⟩
  · exact hsame.live.trans h.live
  · rw [hsame.chunks, Arena.covered_grow, ← h.tiles]
    exact covered_cons
  · rw [hsame.obtained, hobt, Arena.total_grow]
  · rw [hsame.stop]
    rw [hsame.chunks] at hx
    show x < b.fin
    rcases covered_cons.mp hx with hx | hx
    · exact hx.2
    · have := h.below x hx
      have : s.stop ≤ b.fin := le_trans (Nat.le_add_right ..) (Nat.le_add_right ..)
      omega
  · rw [hsame.stop]
    exact h.stop.trans (le_trans (Nat.le_add_right ..) (Nat.le_add_right ..))
  · obtain ⟨c, hc, hlen⟩ := exists_len_le_place b A.free
    exact ⟨c, hc, (Nat.mul_comm ..).le.trans hlen⟩

/-- A block that `malloc` has taken belongs to the program. -/
theorem take (hn : 0 < n.toNat) (hprev : prevp ∈ (L.ring A.free).map addr)
    (hsize : n ≤ s.size (s.ptr prevp)) :
    ∃ A' b, Represents L ((s.take n prevp (s.ptr prevp)).2.got (b.addr + unit)) A' ∧
      A'.live = b :: A.live ∧ (s.take n prevp (s.ptr prevp)).1 = b.addr + unit ∧
      b.len = unit * n.toNat := by
  obtain ⟨A', b, hmem, hlive, hret, hlen, hcov, htotal⟩ := h.mem.take hn hprev hsize
  have hsame := take_same s n prevp (s.ptr prevp)
  have hb : (s.take n prevp (s.ptr prevp)).2.block b.addr = b :=
    hmem.sized b (hlive ▸ .head _)
  refine ⟨A', b, ?_, hlive, hret, hlen⟩
  rw [got_of_block hb, hsame.live]
  refine h.move (hmem.congr (fun _ _ => rfl) (fun _ _ => rfl) rfl) ?_ hsame.stop hsame.chunks hcov
    htotal
  rw [hlive, ← h.live]

end Represents

/-! ## `malloc` -/

variable {gaps : List (Option ℕ)} {nu : UInt32} {fuel : ℕ} {gap : Option ℕ}

theorem morecore_obtained {g : ℕ} (h : s.morecore fuel nu (some g) = some (r, s')) :
    s'.obtained = (request nu).toNat * unit + s.obtained := by
  rw [morecore_eq, State.free] at h
  obtain ⟨t, ht, heq⟩ := map_eq_some_iff.mp h
  obtain ⟨q, -, rfl⟩ := map_eq_some_iff.mp ht
  obtain ⟨-, rfl⟩ := Prod.mk.inj heq
  exact (linkIn_same ..).obtained

theorem morecore_obtained_le (h : s.morecore fuel nu gap = some (r, s')) :
    s.obtained ≤ s'.obtained := by
  cases gap with
  | none =>
    cases h
    exact le_rfl
  | some g =>
    rw [morecore_obtained h]
    exact Nat.le_add_left ..

theorem mallocFrom_obtained_le {prevp p : ℕ} (h : mallocFrom n fuel gaps prevp p s = some (r, s')) :
    s.obtained ≤ s'.obtained := by
  induction fuel generalizing gaps prevp p s with
  | zero => cases h
  | succ fuel ih =>
    rw [mallocFrom] at h
    split at h
    · have heq := congrArg Prod.snd (some.inj h)
      rw [← (take_same s n prevp p).obtained, heq]
    · split at h
      · cases hm : s.morecore fuel n gaps.head?.join with
        | none =>
          rw [hm] at h
          cases h
        | some m =>
          obtain ⟨q, t⟩ := m
          have hle := morecore_obtained_le hm
          rw [hm] at h
          dsimp only at h
          split at h
          · cases h
            exact hle
          · exact hle.trans (ih h)
      · exact ih h

/-- **The loop of `malloc`** returns `0` or a block for the program. -/
theorem Represents.mallocFrom (h : Represents L s A) (hn : 0 < n.toNat)
    (hprev : prevp ∈ (L.ring A.free).map addr)
    (hrun : State.mallocFrom n fuel gaps prevp (s.ptr prevp) s = some (r, s'))
    (hroom : s'.obtained < 2 ^ 36) : ∃ A', Represents L (s'.got r) A' ∧ (r = 0 ∧ A'.live = A.live ∨
      ∃ b, r = b.addr + unit ∧ A'.live = b :: A.live ∧ b.len = unit * n.toNat) := by
  induction fuel generalizing gaps prevp s A with
  | zero => cases hrun
  | succ fuel ih =>
    have hnext := h.mem.holds.links.next_mem (.head _) hprev
    rw [State.mallocFrom] at hrun
    split at hrun
    · next hsize =>
      obtain ⟨A', b, hrep, hlive, hret, hlen⟩ := h.take hn hprev hsize
      have heq := some.inj hrun
      rw [heq] at hrep hret
      obtain rfl : r = b.addr + unit := hret
      exact ⟨A', hrep, .inr ⟨b, rfl, hlive, hlen⟩⟩
    · split at hrun
      · cases hm : s.morecore fuel n gaps.head?.join with
        | none =>
          rw [hm] at hrun
          cases hrun
        | some m =>
          obtain ⟨q, t⟩ := m
          rw [hm] at hrun
          dsimp only at hrun
          cases hgap : gaps.head?.join with
          | none =>
            rw [hgap] at hm
            cases hm
            rw [if_pos rfl] at hrun
            cases hrun
            exact ⟨A, h, .inl ⟨rfl, rfl⟩⟩
          | some g =>
            rw [hgap] at hm
            have hroom' : t.obtained < 2 ^ 36 := by
              split at hrun
              · cases hrun
                exact hroom
              · exact lt_of_le_of_lt (mallocFrom_obtained_le hrun) hroom
            obtain ⟨rfl, A', hrep, hlive, -⟩ := h.morecore hm hroom'
            rw [if_neg hrep.freep_ne_zero] at hrun
            obtain ⟨A'', hrep', hres⟩ := ih hrep hrep.mem.freep hrun
            rw [hlive] at hres
            exact ⟨A'', hrep', hres⟩
      · exact ih h hnext hrun

/-- As long as no block has enough room, the loop goes on to `freep`. -/
theorem mallocFrom_walk {B : List ℕ} {f : ℕ} (hf : s.freep = f) (hlink : Linked s.ptr B f)
    (hnot : f ∉ B) (fuel : ℕ) (gaps : List (Option ℕ)) (prevp : ℕ) :
    (mallocFrom n (B.length + fuel) gaps prevp (B.headD f) s).isSome ∨
    (∀ x ∈ B, ¬ s.size x ≥ n) ∧ ∃ prevp', mallocFrom n (B.length + fuel) gaps prevp (B.headD f) s =
      mallocFrom n fuel gaps prevp' f s := by
  induction B generalizing prevp with
  | nil =>
    refine .inr ⟨fun x hx => absurd hx not_mem_nil, prevp, ?_⟩
    rw [length_nil, Nat.zero_add]
    rfl
  | cons x B ih =>
    rw [length_cons, Nat.add_right_comm]
    show (mallocFrom n (B.length + fuel + 1) gaps prevp x s).isSome ∨ _ ∧ ∃ prevp',
      mallocFrom n (B.length + fuel + 1) gaps prevp x s = _
    rw [mallocFrom]
    by_cases hsize : s.size x ≥ n
    · rw [if_pos hsize]
      exact .inl rfl
    · have hx : x ≠ s.freep := fun heq => hnot (by rw [← hf, ← heq]; exact .head _)
      rw [if_neg hsize, if_neg hx, show s.ptr x = B.headD f from hlink.1]
      refine (ih hlink.2 (fun h => hnot (.tail _ h)) x).imp id fun h => ⟨?_, h.2⟩
      intro y hy
      rcases mem_cons.mp hy with rfl | hy
      · exact hsize
      · exact h.1 y hy

/-- The rest of the ring, from `freep` on. -/
theorem Mem.exists_rest (h : Mem L s A) : ∃ B, Linked s.ptr B s.freep ∧ s.freep ∉ B ∧
    s.ptr s.freep = B.headD s.freep ∧ B.length = A.free.length ∧
    ∀ x ∈ (L.ring A.free).map addr, x = s.freep ∨ x ∈ B := by
  obtain ⟨u, v, heq⟩ := append_of_mem h.freep
  have hlink := h.holds.links
  have hnodup := h.spread.nodup
  have hlen : (L.ring A.free).length = A.free.length + 1 := rfl
  have hlen' := congrArg List.length heq
  have hhead : L.base = ((L.ring A.free).map addr).headD L.base := rfl
  rw [hhead, heq] at hlink
  rw [heq] at hnodup
  rw [length_map, length_append, length_cons] at hlen'
  have hrot := hlink.rotate
  refine ⟨v ++ u, hrot.2, fun hmem => ?_, hrot.1, ?_, fun x hx => ?_⟩
  · rw [nodup_append, nodup_cons] at hnodup
    obtain ⟨-, ⟨hv, -⟩, hu⟩ := hnodup
    rcases mem_append.mp hmem with hmem | hmem
    · exact hv hmem
    · exact hu _ hmem _ (.head _) rfl
  · rw [length_append]
    omega
  · rw [heq] at hx
    rcases mem_append.mp hx with hx | hx
    · exact .inr (mem_append_right _ hx)
    · exact (mem_cons.mp hx).imp id (mem_append_left _)

theorem Represents.morecore_isSome (h : Represents L s A)
    (hfuel : 2 * (A.free.length + 1) < fuel) : (s.morecore fuel nu gap).isSome := by
  cases gap with
  | none => rfl
  | some g =>
    have hmem := h.mem_more (request nu) g
    have hbase : L.base + 16 ≤ s.stop := h.stop
    have hsome : ((more s (request nu) g).findPrev (s.stop + g) fuel s.freep).isSome := by
      refine hmem.findPrev_isSome (by omega) (fun a ha => ?_) hmem.freep hfuel
      rcases mem_cons.mp ha with rfl | ha
      · show L.base ≠ s.stop + g
        omega
      · have hfin := h.fin_le (mem_append_left _ ha)
        have hpos := A.pos_free ha
        have : a.fin = a.addr + a.len := rfl
        omega
    rw [morecore_eq, State.free, Nat.add_sub_cancel, isSome_map, isSome_map]
    exact hsome

/-- **The search of `malloc` ends.** It passes the ring once, and once more after new memory. -/
theorem Represents.mallocFrom_isSome (h : Represents L s A)
    (hfits : ∀ g, gaps.head?.join = some g → s.obtained + (request n).toNat * unit < 2 ^ 36)
    (hfuel : 3 * A.free.length + 4 ≤ fuel) :
    (State.mallocFrom n fuel gaps s.freep (s.ptr s.freep) s).isSome := by
  obtain ⟨B, hlink, hnot, hptr, hlen, -⟩ := h.mem.exists_rest
  obtain ⟨m, rfl⟩ := Nat.exists_eq_add_of_le (show B.length + 1 ≤ fuel by omega)
  rw [hptr, Nat.add_assoc, Nat.add_comm 1 m]
  rcases mallocFrom_walk rfl hlink hnot (m + 1) gaps s.freep with hsome | ⟨-, prevp, heq⟩
  · exact hsome
  rw [heq, State.mallocFrom]
  by_cases hsize : s.size s.freep ≥ n
  · rw [if_pos hsize]
    rfl
  rw [if_neg hsize, if_pos rfl]
  have hmore : (s.morecore m n gaps.head?.join).isSome := h.morecore_isSome (by omega)
  obtain ⟨⟨r, t⟩, hm⟩ := isSome_iff_exists.mp hmore
  rw [hm]
  dsimp only
  cases hgap : gaps.head?.join with
  | none =>
    rw [hgap] at hm
    cases hm
    rw [if_pos rfl]
    rfl
  | some g =>
    rw [hgap] at hm
    have hroom : t.obtained < 2 ^ 36 := by
      rw [morecore_obtained hm, Nat.add_comm]
      exact hfits g hgap
    obtain ⟨rfl, A', hrep, -, hlen', c, hc, hbig⟩ := h.morecore hm hroom
    obtain ⟨B', hlink', hnot', hptr', hlenB, hmem⟩ := hrep.mem.exists_rest
    obtain ⟨k, rfl⟩ := Nat.exists_eq_add_of_le (show B'.length + 1 ≤ m by omega)
    rw [if_neg hrep.freep_ne_zero, hptr', Nat.add_assoc, Nat.add_comm 1 k]
    rcases mallocFrom_walk rfl hlink' hnot' (k + 1) gaps.tail t.freep with hsome |
      ⟨hsmall, prevp', heq'⟩
    · exact hsome
    -- the block with the new memory has room, so it is the one at `freep`
    have hcsize : t.size c.addr ≥ n := by
      have hlen : 16 * (t.size c.addr).toNat = c.len :=
        congrArg Extent.len (hrep.mem.holds.sized c (.tail _ hc))
      have hbig' : 16 * (request n).toNat ≤ c.len := hbig
      have hle : n.toNat ≤ (request n).toNat := request_toNat n ▸ le_max_right ..
      show n.toNat ≤ (t.size c.addr).toNat
      omega
    have hfreep : c.addr = t.freep :=
      (hmem c.addr (mem_map_of_mem (.tail _ hc))).resolve_right
        fun hB => hsmall _ hB hcsize
    rw [heq', State.mallocFrom, if_pos (hfreep ▸ hcsize)]
    rfl

end State

/-! ## Programs -/

section

open State

variable {L : Layout} {s s' : State} {nbytes : UInt32}

/-- Before the first `malloc` there is nothing; after that, memory holds an arena. -/
def Inv (L : Layout) (s : State) : Prop :=
  (s.freep = 0 ∧ s.live = [] ∧ s.chunks = [] ∧ L.base + unit ≤ s.stop) ∨ ∃ A, Represents L s A

theorem Inv.init (h : Inv L s) : (s.init L.base).obtained = s.obtained ∧
    ∃ A, Represents L (s.init L.base) A ∧ A.live = s.live := by
  rcases h with ⟨hfreep, hlive, hchunks, hstop⟩ | ⟨A, h⟩
  · rw [State.init, if_pos hfreep]
    refine ⟨rfl, .empty, ⟨⟨⟨⟨?_, trivial⟩, ?_⟩, ?_, ?_, ?_⟩, hlive, ?_, ?_, ?_, hstop⟩, hlive.symm⟩
    · show (s.set L.base ⟨L.base, 0⟩).ptr L.base = L.base
      rw [set_ptr_self]
    · intro a ha
      obtain rfl := mem_singleton.mp ha
      exact block_set ..
    · exact mem_singleton_self _
    · exact fun b hb => absurd hb not_mem_nil
    · exact fun b hb => absurd hb not_mem_nil
    · intro x
      show Covered s.chunks x ↔ _
      rw [hchunks]
      rfl
    · show total s.chunks = _
      rw [hchunks]
      rfl
    · intro x hx
      have hx' : Covered s.chunks x := hx
      rw [hchunks] at hx'
      exact absurd hx' (covered_nil).mp
  · rw [State.init, if_neg h.freep_ne_zero]
    exact ⟨rfl, A, h, h.live.symm⟩

theorem toNat_nunits (hn : nunits nbytes * unit < 2 ^ 31) :
    (UInt32.ofNat (nunits nbytes)).toNat = nunits nbytes := by
  have hn' : nunits nbytes * 16 < 2 ^ 31 := hn
  rw [UInt32.toNat_ofNat']
  exact Nat.mod_eq_of_lt (by omega)

/-- **`malloc`** returns `0`, or a new block with room for the bytes that were asked for. -/
theorem Inv.malloc {fuel r : ℕ} {gaps : List (Option ℕ)} (h : Inv L s)
    (hn : nunits nbytes * unit < 2 ^ 31) (hrun : s.malloc L.base fuel nbytes gaps = some (r, s'))
    (hroom : s'.obtained < 2 ^ 36) : ∃ A', Represents L (s'.got r) A' ∧ (r = 0 ∨
      ∃ b, r = b.addr + unit ∧ A'.live = b :: s.live ∧ b.len = unit * nunits nbytes) := by
  obtain ⟨-, A, hrep, hlive⟩ := h.init
  have hpos : 0 < (UInt32.ofNat (nunits nbytes)).toNat := by
    rw [toNat_nunits hn]
    exact Nat.succ_pos _
  obtain ⟨A', hrep', hres⟩ := hrep.mallocFrom hpos hrep.mem.freep hrun hroom
  refine ⟨A', hrep', hres.imp (fun h => h.1) ?_⟩
  rintro ⟨b, hr, hlive', hlen⟩
  exact ⟨b, hr, by rw [hlive', hlive], by rw [hlen, toNat_nunits hn]⟩

/-- The program writes to its own blocks. -/
theorem Inv.write {hdr : ℕ → Header} (h : Inv L s)
    (hw : ∀ a, hdr a ≠ s.hdr a → ∃ b ∈ s.live, b.addr < a ∧ a < b.fin) :
    Inv L { s with hdr := hdr } := by
  rcases h with ⟨hfreep, hlive, hchunks, hstop⟩ | ⟨A, h⟩
  · exact .inl ⟨hfreep, hlive, hchunks, hstop⟩
  · -- no header of a block is inside another block
    have hkeep : ∀ a ∈ A.all, hdr a.addr = s.hdr a.addr := fun a ha => by
      by_contra hne
      obtain ⟨b, hb, hlt, hfin⟩ := hw a.addr hne
      rw [h.live] at hb
      have hab : a ≠ b := by
        rintro rfl
        exact lt_irrefl _ hlt
      have hapart : a.Apart b :=
        A.pairwise_apart.forall ha (mem_append_right _ hb) hab
      exact hapart a.addr ⟨le_rfl, Nat.lt_add_of_pos_right (A.pos a ha)⟩ ⟨hlt.le, hfin⟩
    have hbase : hdr L.base = s.hdr L.base := by
      by_contra hne
      obtain ⟨b, hb, hlt, -⟩ := hw _ hne
      rw [h.live] at hb
      exact absurd hlt (h.mem.base_lt (mem_append_right _ hb)).le.not_gt
    refine .inr ⟨A, h.mem.congr (fun a ha => ?_)
      (fun a ha => hkeep a (mem_append_right _ ha)) rfl, h.live, h.tiles, h.counts, h.below,
      h.stop⟩
    rcases mem_cons.mp ha with rfl | ha
    · exact hbase
    · exact hkeep a (mem_append_left _ ha)

theorem got_hdr (s : State) (r q : ℕ) : (s.got r).hdr q = s.hdr q := by
  rw [got]
  split
  · rfl
  · rfl

theorem obtained_got (s : State) (r : ℕ) : (s.got r).obtained = s.obtained := by
  rw [got]
  split
  · rfl
  · rfl

theorem free_obtained {fuel ap : ℕ} (h : s.free fuel ap = some s') : s'.obtained = s.obtained := by
  obtain ⟨q, -, rfl⟩ := map_eq_some_iff.mp h
  exact (linkIn_same ..).obtained

/-- **Every step keeps the invariant.** -/
theorem Inv.step (h : Inv L s ∧ s.obtained < 2 ^ 36) (hstep : Step L (· < 2 ^ 36) s s') :
    Inv L s' ∧ s'.obtained < 2 ^ 36 := by
  obtain ⟨h, hroom⟩ := h
  cases hstep with
  | malloc hn hrun hroom' =>
    obtain ⟨A', hrep, -⟩ := h.malloc hn hrun hroom'
    exact ⟨.inr ⟨A', hrep⟩, by rwa [obtained_got]⟩
  | free hb hrun =>
    rcases h with ⟨-, hlive, -⟩ | ⟨A, h⟩
    · rw [hlive] at hb
      cases hb
    · rw [h.live] at hb
      refine ⟨.inr ⟨_, h.free hb hroom hrun⟩, ?_⟩
      rw [← free_obtained hrun] at hroom
      exact hroom
  | write hw => exact ⟨h.write hw, hroom⟩

theorem inv_of_reachable (hr : Reachable L (· < 2 ^ 36) s) : Inv L s ∧ s.obtained < 2 ^ 36 := by
  obtain ⟨hdr, hrun⟩ := hr
  induction hrun with
  | refl => exact ⟨.inl ⟨rfl, rfl, rfl, L.base_le⟩, Nat.two_pow_pos 36⟩
  | tail _ hstep ih => exact Inv.step ih hstep

/-- **The user heap.** In every state that a program reaches with less than `2 ^ 36` bytes from
`sbrk`, the free list is a ring through `base` in the order of the addresses, with a gap after each
block, and free and live blocks are disjoint and tile exactly the memory obtained. From there every
`malloc` ends, and what it returns is `0` or a block of the size asked for that is disjoint from
every live block; and every `free` of a live block ends. -/
theorem user_heap (hr : Reachable L (· < 2 ^ 36) s) :
    (s.freep = 0 ∧ s.live = [] ∧ s.chunks = [] ∨
      ∃ free, s.Holds (L.ring free) L.base ∧ s.freep ∈ (L.ring free).map addr ∧
        Spread (L.ring free) ∧ (∀ b ∈ s.live, s.block b.addr = b) ∧
        (free ++ s.live).Pairwise Apart ∧
        ∀ x, Covered s.chunks x ↔ Covered (free ++ s.live) x) ∧
    (∀ (nbytes : UInt32) (gaps : List (Option ℕ)), nunits nbytes * unit < 2 ^ 31 →
      ((∀ g, gaps.head? = some (some g) →
          s.obtained + max 4096 (nunits nbytes) * unit < 2 ^ 36) →
        ∃ N, ∀ fuel ≥ N, (s.malloc L.base fuel nbytes gaps).isSome) ∧
      ∀ fuel p s', s.malloc L.base fuel nbytes gaps = some (p, s') → s'.obtained < 2 ^ 36 →
        p = 0 ∨ ∃ b : Extent, p = b.addr + unit ∧ s'.block b.addr = b ∧
          nbytes.toNat + unit ≤ b.len ∧ ∀ a ∈ s.live, a.Apart b) ∧
    ∀ b ∈ s.live, ∃ N, ∀ fuel ≥ N, (s.free fuel (b.addr + unit)).isSome := by
  obtain ⟨hinv, hroom⟩ := inv_of_reachable hr
  refine ⟨?_, fun nbytes gaps hn => ⟨fun hfits => ?_, fun fuel p s' hrun hroom' => ?_⟩,
    fun b hb => ?_⟩
  · rcases hinv with ⟨hfreep, hlive, hchunks, -⟩ | ⟨A, h⟩
    · exact .inl ⟨hfreep, hlive, hchunks⟩
    · refine .inr ⟨A.free, h.mem.holds, h.mem.freep, h.mem.spread, ?_, ?_, ?_⟩
      · rw [h.live]
        exact h.mem.sized
      · rw [h.live]
        exact A.pairwise_apart
      · rw [h.live]
        exact h.tiles
  · obtain ⟨hobt, A, hrep, -⟩ := hinv.init
    refine ⟨3 * A.free.length + 4, fun fuel hfuel => hrep.mallocFrom_isSome (fun g hg => ?_) hfuel⟩
    have hgaps : gaps.head? = some (some g) := by
      cases gaps with
      | nil => cases hg
      | cons x gaps => exact congrArg some hg
    have hreq : (request (UInt32.ofNat (nunits nbytes))).toNat = max 4096 (nunits nbytes) := by
      rw [request_toNat, toNat_nunits hn]
    rw [hobt, hreq]
    exact hfits g hgaps
  · obtain ⟨A', hrep, hres⟩ := hinv.malloc hn hrun hroom'
    refine hres.imp id ?_
    rintro ⟨b, rfl, hlive, hlen⟩
    have hb : b ∈ A'.live := hlive ▸ .head _
    have hapart := A'.apart
    rw [hlive] at hapart
    refine ⟨b, rfl, ?_, ?_, fun a ha => ((pairwise_cons.mp hapart).1 a ha).symm⟩
    · rw [← hrep.mem.sized b hb]
      exact block_congr (got_hdr ..).symm
    · rw [hlen]
      show nbytes.toNat + 16 ≤ 16 * ((nbytes.toNat + 16 - 1) / 16 + 1)
      omega
  · rcases hinv with ⟨-, hlive, -⟩ | ⟨A, h⟩
    · rw [hlive] at hb
      cases hb
    · rw [h.live] at hb
      refine ⟨2 * (L.ring A.free).length + 1, fun fuel hfuel => ?_⟩
      rw [State.free, Nat.add_sub_cancel, isSome_map]
      exact h.mem.findPrev_isSome (h.mem.base_lt (mem_append_right _ hb))
        (fun a ha => (h.mem.live_addr_ne hb ha).symm) h.mem.freep hfuel

/-! ### Runs -/

/-- A call of a program; it gives back the block at a place in the list of those it has. -/
inductive Op
  | malloc (nbytes : UInt32) (gaps : List (Option ℕ))
  | free (i : ℕ)

variable (L) (room : ℕ → Prop) [DecidablePred room] (fuel : ℕ)

def Op.run (s : State) : Op → Option State
  | .malloc nbytes gaps =>
    match s.malloc L.base fuel nbytes gaps with
    | some (p, s') =>
      if nunits nbytes * unit < 2 ^ 31 ∧ room s'.obtained then some (s'.got p) else none
    | none => none
  | .free i =>
    match s.live[i]? with
    | some b => (s.free fuel (b.addr + unit)).map fun s' => s'.gone b
    | none => none

def runAll : List Op → State → Option State
  | [], s => some s
  | op :: ops, s => (op.run L room fuel s).bind (runAll ops)

variable {L room fuel}

theorem Op.step {op : Op} (h : op.run L room fuel s = some s') : Step L room s s' := by
  cases op with
  | malloc nbytes gaps =>
    rw [Op.run] at h
    split at h
    · next hrun =>
      split at h
      · next hok =>
        cases h
        exact .malloc hok.1 hrun hok.2
      · cases h
    · cases h
  | free i =>
    rw [Op.run] at h
    split at h
    · next hb =>
      obtain ⟨t, ht, rfl⟩ := map_eq_some_iff.mp h
      exact .free (mem_of_getElem? hb) ht
    · cases h

theorem runAll_steps {ops : List Op} (h : runAll L room fuel ops s = some s') :
    Relation.ReflTransGen (Step L room) s s' := by
  induction ops generalizing s with
  | nil =>
    cases h
    exact .refl
  | cons op ops ih =>
    obtain ⟨t, ht, hrest⟩ := bind_eq_some_iff.mp h
    exact .head (Op.step ht) (ih hrest)

/-- `base` at 4096, and the heap from 8192 on. -/
def exampleLayout : Layout := ⟨4096, 8192, by decide, by decide⟩

/-- Two blocks, of which the first is given back. -/
theorem user_heap_two : ∃ s, Reachable exampleLayout (· < 2 ^ 36) s ∧ s.live = [⟨73616, 64⟩] ∧
    s.ptr 4096 = 8192 ∧ ∃ free, s.Holds (exampleLayout.ring free) 4096 ∧
      ∀ x, Covered s.chunks x ↔ Covered (free ++ s.live) x := by
  have hrun : (runAll exampleLayout (· < 2 ^ 36) 9
      [.malloc 24 [some 0], .malloc 40 [none], .free 1] (start exampleLayout fun _ => ⟨0, 0⟩)).any
      (fun s => decide (s.live = [⟨73616, 64⟩] ∧ s.ptr 4096 = 8192)) = true := by decide +kernel
  obtain ⟨s, hs, hp⟩ := (any_eq_true _ _).mp hrun
  obtain ⟨hlive, hptr⟩ := of_decide_eq_true hp
  have hr : Reachable exampleLayout (· < 2 ^ 36) s := ⟨_, runAll_steps hs⟩
  refine ⟨s, hr, hlive, hptr, ?_⟩
  rcases (user_heap hr).1 with ⟨-, hnil, -⟩ | ⟨free, hholds, -, -, -, -, htiles⟩
  · rw [hlive] at hnil
    cases hnil
  · exact ⟨free, hholds, htiles⟩

/-- Thirty-three blocks of almost 2 GiB each, all of which are given back, the oldest first. -/
def largeProgram : List Op :=
  List.replicate 33 (.malloc 2147483616 [some 0]) ++
    (List.range 33).map fun i => .free (32 - i)

/-- **Blocks that are joined may get too large.** After `largeProgram` there is one free block,
whose size has wrapped around, and no live one: most of the memory obtained is in no block. -/
theorem user_heap_overflow : ∃ s, Reachable exampleLayout (fun _ => True) s ∧ s.freep ≠ 0 ∧
    ¬ ∃ free, s.Holds (exampleLayout.ring free) exampleLayout.base ∧
      Spread (exampleLayout.ring free) ∧
      ∀ x, Covered s.chunks x ↔ Covered (free ++ s.live) x := by
  have hrun : (runAll exampleLayout (fun _ => True) 8 largeProgram
      (start exampleLayout fun _ => ⟨0, 0⟩)).any
      (fun s => decide (s.freep = 8192 ∧ s.live = [] ∧ s.ptr 4096 = 8192 ∧ s.ptr 8192 = 4096 ∧
        s.size 8192 = 134217695 ∧ ⟨8192, 2147483632⟩ ∈ s.chunks)) = true := by decide +kernel
  obtain ⟨s, hs, hp⟩ := (any_eq_true _ _).mp hrun
  obtain ⟨hfreep, hlive, hptr, hptr', hsize, hchunk⟩ := of_decide_eq_true hp
  refine ⟨s, ⟨_, runAll_steps hs⟩, by rw [hfreep]; decide, ?_⟩
  rintro ⟨free, hholds, hspread, htiles⟩
  -- the ring is `base` and the block at 8192
  obtain ⟨a, rfl, haddr⟩ : ∃ a : Extent, free = [a] ∧ a.addr = 8192 := by
    have hbase : s.ptr 4096 = first free 4096 := hholds.links.1
    cases free with
    | nil =>
      rw [hptr] at hbase
      cases hbase
    | cons a l =>
      have haddr : a.addr = 8192 := hbase.symm.trans hptr
      have hnext : s.ptr a.addr = first l 4096 := hholds.links.2.1
      cases l with
      | nil => exact ⟨a, rfl, haddr⟩
      | cons c l =>
        have hc : c.addr = 4096 := by
          rw [haddr, hptr'] at hnext
          exact hnext.symm
        have hlt : a.fin < c.addr :=
          (pairwise_cons.mp (pairwise_cons.mp hspread).2).1 c (.head _)
        have hle : a.addr ≤ a.fin := Nat.le_add_right ..
        omega
  have hlen : unit * (s.size a.addr).toNat = a.len :=
    congrArg Extent.len (hholds.sized a (.tail _ (.head _)))
  rw [haddr, hsize] at hlen
  have hlen' : a.len = 2147483120 := hlen.symm
  -- what follows it was obtained as well
  have hcov : Covered s.chunks a.fin := by
    refine ⟨_, hchunk, ?_, ?_⟩
    · show 8192 ≤ a.addr + a.len
      omega
    · show a.addr + a.len < 8192 + 2147483632
      omega
  have hcov' := (htiles a.fin).mp hcov
  rw [hlive, append_nil, covered_cons, covered_nil, or_false] at hcov'
  exact lt_irrefl _ hcov'.2

end

end Heap

end TrinityXv6
