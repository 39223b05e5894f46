import TrinityXv6.Heap.Malloc

/-!
# The ring of free blocks

What `free` and `malloc` do to the ring in memory, given the list of blocks that it holds. The two
joins of `free` are the same operation: a block is put in front of the part of the ring that follows
it, and `free` does this for the block it is given and then for the block before it.
-/

namespace TrinityXv6

namespace Heap

open Extents Extent Links
open List

namespace State

variable {s s' : State} {a b p x : Extent} {l l₁ l₂ : List Extent} {e q : ℕ}

@[simp] theorem set_hdr_self (s : State) (a : ℕ) (h : Header) : (s.set a h).hdr a = h :=
  Function.update_self ..

@[simp] theorem set_ptr_self (s : State) (a : ℕ) (h : Header) : (s.set a h).ptr a = h.ptr := by
  rw [ptr, set_hdr_self]

@[simp] theorem set_size_self (s : State) (a : ℕ) (h : Header) : (s.set a h).size a = h.size := by
  rw [size, set_hdr_self]

theorem set_hdr_of_ne {c : ℕ} (h : Header) (hne : c ≠ q) : (s.set q h).hdr c = s.hdr c :=
  Function.update_of_ne hne ..

theorem block_fin (s : State) (a : ℕ) : (s.block a).fin = a + unit * (s.size a).toNat := rfl

/-- Memory holds the blocks of a list, linked in their order, with a last link to `e`. -/
structure Holds (s : State) (l : List Extent) (e : ℕ) : Prop where
  links : Linked s.ptr (l.map Extent.addr) e
  sized : ∀ a ∈ l, s.block a.addr = a

/-- The address of the first block, or `e`. -/
def first (l : List Extent) (e : ℕ) : ℕ := (l.map Extent.addr).headD e

@[simp] theorem first_nil (e : ℕ) : first [] e = e := rfl

@[simp] theorem first_cons (a : Extent) (l : List Extent) (e : ℕ) : first (a :: l) e = a.addr := rfl

theorem first_joinUp (b : Extent) (l : List Extent) (e : ℕ) : first (joinUp b l) e = b.addr := by
  obtain ⟨c, m, heq, haddr, -⟩ := exists_joinUp b l
  rw [heq]
  exact haddr

theorem block_congr (h : s'.hdr q = s.hdr q) : s'.block q = s.block q := by
  rw [block, block, size, size, h]

theorem ptr_congr (h : s'.hdr q = s.hdr q) : s'.ptr q = s.ptr q := by
  rw [ptr, ptr, h]

namespace Holds

theorem congr (h : s.Holds l e) (heq : ∀ a ∈ l, s'.hdr a.addr = s.hdr a.addr) : s'.Holds l e := by
  refine ⟨h.links.congr fun c hc => ?_, fun a ha => ?_⟩
  · obtain ⟨a, ha, rfl⟩ := mem_map.mp hc
    exact ptr_congr (heq a ha)
  · rw [block_congr (heq a ha), h.sized a ha]

theorem append_iff : s.Holds (l₁ ++ l₂) e ↔ s.Holds l₁ (first l₂ e) ∧ s.Holds l₂ e := by
  constructor
  · intro h
    have hl := h.links
    rw [map_append, linked_append] at hl
    exact ⟨⟨hl.1, fun a ha => h.sized a (mem_append_left _ ha)⟩,
      ⟨hl.2, fun a ha => h.sized a (mem_append_right _ ha)⟩⟩
  · rintro ⟨h₁, h₂⟩
    refine ⟨?_, fun a ha => ?_⟩
    · rw [map_append]
      exact linked_append.mpr ⟨h₁.links, h₂.links⟩
    · exact (mem_append.mp ha).elim (h₁.sized a) (h₂.sized a)

theorem cons_iff : s.Holds (a :: l) e ↔ s.hdr a.addr = ⟨first l e, s.size a.addr⟩ ∧
    s.block a.addr = a ∧ s.Holds l e := by
  constructor
  · intro h
    refine ⟨?_, h.sized a (.head _), h.links.2,
      fun c hc => h.sized c (.tail _ hc)⟩
    rw [← show s.ptr a.addr = first l e from h.links.1]
    rfl
  · rintro ⟨hp, ha, h⟩
    refine ⟨⟨?_, h.links⟩, fun c hc => ?_⟩
    · show (s.hdr a.addr).ptr = _
      rw [hp]
      rfl
    · rcases mem_cons.mp hc with rfl | hc
      · exact ha
      · exact h.sized c hc

theorem ptr_eq (h : s.Holds (l₁ ++ a :: l₂) e) : s.ptr a.addr = first l₂ e :=
  (append_iff.mp h).2.links.1

end Holds

/-! ## Joining blocks -/

/-- A join writes one header. -/
theorem join_hdr_of_ne {y q : ℕ} {c : ℕ} (h : c ≠ y) : (s.join y q).hdr c = s.hdr c := by
  rw [join]
  split
  · exact set_hdr_of_ne _ h
  · exact set_hdr_of_ne _ h

theorem block_set (s : State) (a r : ℕ) (z : UInt32) :
    (s.set a ⟨r, z⟩).block a = ⟨a, unit * z.toNat⟩ := by
  rw [block, size, set_hdr_self]

/-- **One join**: a block in front of a part of the ring. -/
theorem Holds.join (h : s.Holds l e) (hx : s.block x.addr = x) (hnot : ∀ a ∈ l, a.addr ≠ x.addr)
    (he : l = [] → x.fin ≠ e) (hlen : x.len + total l < 2 ^ 36) :
    (s.join x.addr (first l e)).Holds (joinUp x l) e := by
  have hfin : x.addr + unit * (s.size x.addr).toNat = x.fin := by rw [← block_fin, hx]
  have hlen' : 16 * (s.size x.addr).toNat = x.len := congrArg Extent.len hx
  have hkeep : ∀ {h : Header} {m : List Extent}, m ⊆ l → s.Holds m e → (s.set x.addr h).Holds m e :=
    fun hsub hm => hm.congr fun a ha => set_hdr_of_ne _ (hnot a (hsub ha))
  -- a header that is only linked
  have hlink : (s.set x.addr ⟨first l e, s.size x.addr⟩).Holds (x :: l) e := by
    refine cons_iff.mpr ⟨?_, ?_, hkeep (List.Subset.refl _) h⟩
    · rw [set_hdr_self, set_size_self]
    · rw [block_set, hlen']
  rw [State.join, hfin]
  cases l with
  | nil =>
    rw [if_neg (show x.fin ≠ first [] e from he rfl)]
    exact hlink
  | cons a l =>
    obtain ⟨hptr, ha, htail⟩ := cons_iff.mp h
    rw [joinUp, first_cons]
    by_cases htouch : x.fin = a.addr
    · have hlena : 16 * (s.size a.addr).toNat = a.len := congrArg Extent.len ha
      have hsum : (s.size x.addr + s.size a.addr).toNat =
          (s.size x.addr).toNat + (s.size a.addr).toNat := by
        rw [UInt32.toNat_add]
        refine Nat.mod_eq_of_lt ?_
        rw [total_cons] at hlen
        omega
      rw [if_pos htouch, if_pos htouch]
      refine cons_iff.mpr ⟨?_, ?_, hkeep (subset_cons_self ..) htail⟩
      · rw [join_addr, set_hdr_self, set_size_self, ptr, hptr]
      · show (s.set x.addr ⟨s.ptr a.addr, s.size x.addr + s.size a.addr⟩).block x.addr = _
        rw [block_set, hsum, Nat.mul_add, hlen', hlena]
        rfl
    · rw [if_neg htouch, if_neg htouch]
      exact hlink

/-- **`free` puts a block in its place**, once it has found the block before. -/
theorem Holds.linkIn (h : s.Holds (l₁ ++ p :: l₂) e) (hb : s.block b.addr = b)
    (hnot : ∀ a ∈ l₁ ++ p :: l₂, a.addr ≠ b.addr)
    (hnodup : ((l₁ ++ p :: l₂).map addr).Nodup) (he : l₂ = [] → b.fin ≠ e)
    (hlen : p.len + (b.len + total l₂) < 2 ^ 36) :
    (s.linkIn b.addr p.addr).Holds (l₁ ++ joinUp p (joinUp b l₂)) e := by
  obtain ⟨h₁, hp⟩ := append_iff.mp h
  obtain ⟨hptr, hpb, h₂⟩ := cons_iff.mp hp
  have hmem : p ∈ l₁ ++ p :: l₂ := mem_append_cons_self
  have hptr' : s.ptr p.addr = first l₂ e := h.ptr_eq
  rw [map_append, map_cons, nodup_append] at hnodup
  obtain ⟨-, hp₂, h₁p⟩ := hnodup
  -- the upper neighbour
  have hup : (s.join b.addr (s.ptr p.addr)).Holds (joinUp b l₂) e := by
    rw [hptr']
    exact h₂.join hb (fun a ha => hnot a (mem_append_right _ (.tail _ ha))) he
      (by omega)
  -- the lower neighbour
  have hnotp : ∀ a ∈ joinUp b l₂, a.addr ≠ p.addr := by
    intro a ha
    rcases addr_of_mem_joinUp ha with h | ⟨c, hc, h⟩
    · rw [h]
      exact (hnot p hmem).symm
    · rw [h]
      rintro heq
      exact (nodup_cons.mp hp₂).1 (heq ▸ mem_map_of_mem hc)
  have hpb' : (s.join b.addr (s.ptr p.addr)).block p.addr = p := by
    rw [block_congr (join_hdr_of_ne (hnot p hmem)), hpb]
  have hlow := hup.join hpb' hnotp
    (fun hnil => absurd hnil (by obtain ⟨c, m, heq, -⟩ := exists_joinUp b l₂; rw [heq]; simp))
    (by rw [total_joinUp]; exact hlen)
  rw [first_joinUp] at hlow
  -- everything before is as it was
  have hkeep : ∀ a ∈ l₁, ((s.join b.addr (s.ptr p.addr)).join p.addr b.addr).hdr a.addr =
      s.hdr a.addr := by
    intro a ha
    rw [join_hdr_of_ne, join_hdr_of_ne]
    · exact hnot a (mem_append_left _ ha)
    · exact h₁p _ (mem_map_of_mem ha) _ (.head _)
  have hall : ((s.join b.addr (s.ptr p.addr)).join p.addr b.addr).Holds
      (l₁ ++ joinUp p (joinUp b l₂)) e := by
    refine append_iff.mpr ⟨?_, hlow⟩
    rw [first_joinUp]
    exact h₁.congr hkeep
  exact ⟨hall.links, hall.sized⟩

end State

/-- The blocks of the ring, `base` first. -/
def Layout.ring (L : Layout) (l : List Extent) : List Extent := ⟨L.base, 0⟩ :: l

namespace State

variable {L : Layout} {A : Arena} {s s' : State} {a b p : Extent} {l l₁ l₂ : List Extent} {e : ℕ}

/-- A block of the program, or a new one, is not in the ring. -/
theorem addr_ne_of_mem_ring (hb : 0 < b.len) (hbase : L.base < b.addr)
    (hapart : ∀ a ∈ A.free, a.Apart b) : ∀ a ∈ L.ring A.free, a.addr ≠ b.addr := by
  intro a ha
  rcases mem_cons.mp ha with rfl | ha
  · exact hbase.ne
  · exact (hapart a ha).addr_ne (A.pos_free ha) hb

/-- Memory holds the free blocks as a ring through `base`, and the live blocks. -/
structure Mem (L : Layout) (s : State) (A : Arena) : Prop where
  holds : s.Holds (L.ring A.free) L.base
  freep : s.freep ∈ (L.ring A.free).map addr
  sized : ∀ b ∈ A.live, s.block b.addr = b
  above : ∀ b ∈ A.all, L.base + unit ≤ b.addr

namespace Mem

/-- What is not written does not matter. -/
theorem congr (h : Mem L s A) (hring : ∀ a ∈ L.ring A.free, s'.hdr a.addr = s.hdr a.addr)
    (hlive : ∀ a ∈ A.live, s'.hdr a.addr = s.hdr a.addr) (hfreep : s'.freep = s.freep) :
    Mem L s' A where
  holds := h.holds.congr hring
  freep := hfreep ▸ h.freep
  sized a ha := (block_congr (hlive a ha)).trans (h.sized a ha)
  above := h.above

variable (h : Mem L s A)
include h

theorem base_lt (ha : a ∈ A.all) : L.base < a.addr :=
  lt_of_lt_of_le (Nat.lt_add_of_pos_right (by decide)) (h.above a ha)

theorem base_le (ha : a ∈ L.ring A.free) : L.base ≤ a.addr := by
  rcases mem_cons.mp ha with rfl | ha
  · exact le_rfl
  · exact (h.base_lt (mem_append_left _ ha)).le

theorem spread : Spread (L.ring A.free) :=
  .cons (fun _ ha => h.base_lt (mem_append_left _ ha)) A.spread

theorem ptr_of_last (heq : L.ring A.free = l₁ ++ [p]) : s.ptr p.addr = L.base :=
  (heq ▸ h.holds : s.Holds (l₁ ++ [p]) L.base).ptr_eq

/-- Two blocks of the ring, one after the other. -/
theorem ptr_of_next (heq : L.ring A.free = l₁ ++ p :: a :: l₂) :
    s.ptr p.addr = a.addr ∧ p.addr < a.addr := by
  refine ⟨(heq ▸ h.holds : s.Holds (l₁ ++ p :: a :: l₂) L.base).ptr_eq, ?_⟩
  have hspread := h.spread
  rw [heq] at hspread
  obtain ⟨-, hpv, -⟩ := pairwise_append.mp hspread
  exact p.addr_le_fin.trans_lt ((pairwise_cons.mp hpv).1 a (.head _))

/-! ## The search of `free` -/

/-- Where the search of `free` stops. -/
def IsPrev (s : State) (bp q : ℕ) : Prop :=
  bp > q ∧ bp < s.ptr q ∨ q ≥ s.ptr q ∧ (bp > q ∨ bp < s.ptr q)

variable {bp fuel q : ℕ}

theorem isPrev_of_findPrev {r : ℕ} (hq : q ∈ (L.ring A.free).map addr)
    (hfind : s.findPrev bp fuel q = some r) : r ∈ (L.ring A.free).map addr ∧ IsPrev s bp r := by
  induction fuel generalizing q with
  | zero => cases hfind
  | succ fuel ih =>
    rw [findPrev] at hfind
    split at hfind
    · next hstop =>
      cases hfind
      exact ⟨hq, .inl hstop⟩
    · split at hfind
      · next hstop =>
        cases hfind
        exact ⟨hq, .inr hstop⟩
      · exact ih (h.holds.links.next_mem (.head _) hq) hfind

/-- There the ring is cut in what is below and what is above the block. -/
theorem split_of_isPrev (hbase : L.base < bp) (hq : q ∈ (L.ring A.free).map addr)
    (hstop : IsPrev s bp q) :
    ∃ u p v, L.ring A.free = u ++ p :: v ∧ p.addr = q ∧ p.addr < bp ∧ ∀ c ∈ v, bp < c.addr := by
  obtain ⟨p, hp, rfl⟩ := mem_map.mp hq
  obtain ⟨u, v, heq⟩ := append_of_mem hp
  have hholds := h.holds
  have hspread := h.spread
  rw [heq] at hholds hspread
  have hptr := hholds.ptr_eq
  refine ⟨u, p, v, heq, rfl, ?_⟩
  rw [IsPrev, hptr] at hstop
  cases v with
  | nil =>
    rw [first_nil] at hstop
    exact ⟨by omega, fun c hc => absurd hc not_mem_nil⟩
  | cons c v =>
    obtain ⟨-, hpv, -⟩ := pairwise_append.mp hspread
    obtain ⟨hpc, hcv⟩ := pairwise_cons.mp hpv
    have hlt := hpc c (.head _)
    have := p.addr_le_fin
    rw [first_cons] at hstop
    refine ⟨by omega, fun d hd => ?_⟩
    rcases mem_cons.mp hd with rfl | hd
    · omega
    · have := (pairwise_cons.mp hcv).1 d hd
      have := c.addr_le_fin
      omega

/-- From a block below, the search goes up to the place. -/
theorem findPrev_up (hbase : L.base < bp) (hnot : ∀ a ∈ L.ring A.free, a.addr ≠ bp)
    (heq : L.ring A.free = l₁ ++ p :: l₂) (hp : p.addr < bp) (hfuel : l₂.length < fuel) :
    (s.findPrev bp fuel p.addr).isSome := by
  induction l₂ generalizing l₁ p fuel with
  | nil =>
    obtain ⟨fuel, rfl⟩ := Nat.exists_eq_add_one.mpr (Nat.zero_lt_of_lt hfuel)
    have hle := h.base_le (heq ▸ mem_append_right l₁ (.head _) : p ∈ _)
    rw [findPrev, h.ptr_of_last heq, if_neg (by omega), if_pos ⟨hle, .inl hp⟩]
    rfl
  | cons c v ih =>
    obtain ⟨fuel, rfl⟩ := Nat.exists_eq_add_one.mpr (Nat.zero_lt_of_lt hfuel)
    obtain ⟨hptr, hlt⟩ := h.ptr_of_next heq
    have heq' : L.ring A.free = (l₁ ++ [p]) ++ c :: v := by rw [heq, append_assoc]; rfl
    rw [findPrev, hptr]
    by_cases hbelow : bp < c.addr
    · rw [if_pos ⟨hp, hbelow⟩]
      rfl
    · have hne := hnot c (heq' ▸ mem_append_cons_self)
      rw [if_neg (by omega), if_neg (by omega)]
      exact ih heq' (by omega) (Nat.lt_of_succ_lt_succ hfuel)

/-- **The search of `free` ends**, from wherever `freep` points. -/
theorem findPrev_isSome (hbase : L.base < bp) (hnot : ∀ a ∈ L.ring A.free, a.addr ≠ bp)
    (hq : q ∈ (L.ring A.free).map addr) (hfuel : 2 * (L.ring A.free).length < fuel) :
    (s.findPrev bp fuel q).isSome := by
  obtain ⟨p, hp, rfl⟩ := mem_map.mp hq
  obtain ⟨u, v, heq⟩ := append_of_mem hp
  have hlen : v.length < (L.ring A.free).length := by
    rw [heq, length_append, length_cons]
    omega
  by_cases hbelow : p.addr < bp
  · exact h.findPrev_up hbase hnot heq hbelow (by omega)
  -- from a block above, it goes up to the last one and on to `base`
  have hfuel' : v.length + (L.ring A.free).length < fuel := by omega
  clear hfuel hlen hq
  induction v generalizing u p fuel with
  | nil =>
    obtain ⟨fuel, rfl⟩ := Nat.exists_eq_add_one.mpr (Nat.zero_lt_of_lt hfuel')
    have hring : L.ring A.free = [] ++ ⟨L.base, 0⟩ :: A.free := rfl
    have hlen : (L.ring A.free).length = A.free.length + 1 := rfl
    rw [findPrev, h.ptr_of_last heq, if_neg (by omega), if_neg (by omega)]
    rw [length_nil] at hfuel'
    exact h.findPrev_up hbase hnot hring hbase (by omega)
  | cons c v ih =>
    obtain ⟨fuel, rfl⟩ := Nat.exists_eq_add_one.mpr (Nat.zero_lt_of_lt hfuel')
    obtain ⟨hptr, hlt⟩ := h.ptr_of_next heq
    have heq' : L.ring A.free = (u ++ [p]) ++ c :: v := by rw [heq, append_assoc]; rfl
    have hc : c ∈ L.ring A.free := heq' ▸ mem_append_cons_self
    rw [findPrev, hptr, if_neg (by omega), if_neg (by omega)]
    rw [length_cons] at hfuel'
    exact ih c hc (u ++ [p]) heq' (by omega) (by omega)

/-! ## `free` -/

omit h in
theorem ring_place (hbase : L.base < b.addr) (hl : ∀ a ∈ l, L.base < a.addr) :
    L.ring (place b l) = place b (L.ring l) := by
  rw [Layout.ring, Layout.ring, place, if_neg (not_lt.mpr hbase.le)]
  refine (joinUp_of_lt fun c hc => ?_).symm
  rcases addr_of_mem_place hc with h | ⟨a, ha, h⟩
  · rwa [h]
  · rw [h]
    exact hl a ha

/-- **`free` adds its block to the free blocks.** -/
theorem linkIn (hb : 0 < b.len) (hnew : ∀ a ∈ A.all, a.Apart b) (hblock : s.block b.addr = b)
    (habove : L.base + unit ≤ b.addr) (hlen : b.len + total A.all < 2 ^ 36)
    (hfind : s.findPrev b.addr fuel s.freep = some q) :
    Mem L (s.linkIn b.addr q) (A.grow b hb hnew) := by
  have hbase : L.base < b.addr := lt_of_lt_of_le (Nat.lt_add_of_pos_right (by decide)) habove
  have hnot := addr_ne_of_mem_ring hb hbase fun a ha => hnew a (mem_append_left _ ha)
  obtain ⟨hq, hstop⟩ := h.isPrev_of_findPrev h.freep hfind
  obtain ⟨u, p, v, heq, rfl, hp, hv⟩ := h.split_of_isPrev hbase hq hstop
  have hmem : p ∈ L.ring A.free := heq ▸ mem_append_cons_self
  have hring : L.ring (place b A.free) = u ++ joinUp p (joinUp b v) := by
    rw [ring_place hbase fun a ha => h.base_lt (mem_append_left _ ha), heq]
    exact place_append_cons (heq ▸ h.spread) hp hv
  have htotal : total u + (p.len + total v) = total A.free := by
    rw [← total_cons, ← total_append, ← heq]
    exact Nat.zero_add _
  have hall : total A.all = total A.free + total A.live := total_append
  have hholds : (s.linkIn b.addr p.addr).Holds (L.ring (place b A.free)) L.base := by
    rw [hring]
    refine Holds.linkIn (heq ▸ h.holds) hblock (heq ▸ hnot) (heq ▸ h.spread.nodup) (fun _ => ?_)
      (by omega)
    have := b.addr_le_fin
    omega
  refine ⟨hholds, ?_, fun c hc => ?_, fun c hc => ?_⟩
  · show p.addr ∈ (L.ring (place b A.free)).map addr
    rw [hring]
    obtain ⟨c, m, hjoin, haddr, -⟩ := exists_joinUp p (joinUp b v)
    rw [hjoin, ← haddr]
    exact mem_map_of_mem mem_append_cons_self
  · have hcb : c.addr ≠ b.addr :=
      (hnew c (mem_append_right _ hc)).addr_ne (A.pos_live hc) hb
    have hcp : c.addr ≠ p.addr := (addr_ne_of_mem_ring (A.pos_live hc)
      (h.base_lt (mem_append_right _ hc)) (fun a ha => A.free_live a ha c hc) p hmem).symm
    show ((s.join b.addr (s.ptr p.addr)).join p.addr b.addr).block c.addr = c
    rw [block_congr (join_hdr_of_ne hcp), block_congr (join_hdr_of_ne hcb), h.sized c hc]
  · rcases mem_append.mp hc with hc | hc
    · rcases addr_of_mem_place hc with hc | ⟨a, ha, hc⟩
      · rwa [hc]
      · rw [hc]
        exact h.above a (mem_append_left _ ha)
    · exact h.above c (mem_append_right _ hc)

end Mem

/-! ## `malloc` -/

/-- One header is written: its block gets another size, and another part of the ring follows it. -/
theorem Holds.relink {m : List Extent} (h : s.Holds (l₁ ++ a :: l₂) e)
    (hnodup : ((l₁ ++ a :: l₂).map addr).Nodup) (hm : s.Holds m e) (hsub : m ⊆ l₂) (z : UInt32) :
    (s.set a.addr ⟨first m e, z⟩).Holds (l₁ ++ a.low (unit * z.toNat) :: m) e := by
  rw [map_append, map_cons, nodup_append] at hnodup
  obtain ⟨-, ha₂, h₁a⟩ := hnodup
  refine append_iff.mpr ⟨(append_iff.mp h).1.congr fun c hc => set_hdr_of_ne _ ?_,
    cons_iff.mpr ⟨?_, block_set .., ?_⟩⟩
  · exact h₁a _ (mem_map_of_mem hc) _ (.head _)
  · show (s.set a.addr ⟨first m e, z⟩).hdr a.addr = ⟨first m e, (s.set a.addr _).size a.addr⟩
    rw [set_hdr_self, set_size_self]
  · refine hm.congr fun c hc => set_hdr_of_ne _ fun heq => (nodup_cons.mp ha₂).1 ?_
    exact heq ▸ mem_map_of_mem (hsub hc)

theorem Holds.unlink (h : s.Holds (l₁ ++ p :: a :: l₂) e)
    (hnodup : ((l₁ ++ p :: a :: l₂).map addr).Nodup) :
    (s.set p.addr ⟨s.ptr a.addr, s.size p.addr⟩).Holds (l₁ ++ p :: l₂) e := by
  obtain ⟨-, hpb, ha⟩ := cons_iff.mp (append_iff.mp h).2
  have hlow : p.low (unit * (s.size p.addr).toNat) = p := hpb
  have hset := h.relink hnodup (cons_iff.mp ha).2.2 (subset_cons_self ..) (s.size p.addr)
  rwa [hlow, ← show s.ptr a.addr = first l₂ e from ha.links.1] at hset

theorem Holds.resize (h : s.Holds (l₁ ++ a :: l₂) e) (hnodup : ((l₁ ++ a :: l₂).map addr).Nodup)
    (z : UInt32) :
    (s.set a.addr ⟨s.ptr a.addr, z⟩).Holds (l₁ ++ a.low (unit * z.toNat) :: l₂) e := by
  rw [h.ptr_eq]
  exact h.relink hnodup (cons_iff.mp (append_iff.mp h).2).2.2 (List.Subset.refl _) z

namespace Mem

variable (h : Mem L s A) {prevp : ℕ}
include h

/-- The header is not that of a live block. -/
theorem live_addr_ne (hb : b ∈ A.live) (ha : a ∈ L.ring A.free) : b.addr ≠ a.addr :=
  (addr_ne_of_mem_ring (A.pos_live hb) (h.base_lt (mem_append_right _ hb))
    (fun c hc => A.free_live c hc b hb) a ha).symm

/-- `base` has no room, so a block that has enough is a free block, and another one is before it. -/
theorem exists_free {n : UInt32} (hn : 0 < n.toNat)
    (hprev : prevp ∈ (L.ring A.free).map addr) (hsize : n ≤ s.size (s.ptr prevp)) :
    ∃ u w p a v, A.free = u ++ a :: v ∧ (∀ m, L.ring (u ++ m) = w ++ p :: m) ∧ p.addr = prevp ∧
      s.ptr prevp = a.addr := by
  obtain ⟨p, hp, rfl⟩ := mem_map.mp hprev
  obtain ⟨w, m, heq⟩ := append_of_mem hp
  have hptr : s.ptr p.addr = first m L.base := (heq ▸ h.holds : s.Holds (w ++ p :: m) _).ptr_eq
  cases m with
  | nil =>
    have hbase := h.holds.sized ⟨L.base, 0⟩ (.head _)
    have hzero : 16 * (s.size L.base).toNat = 0 := congrArg Extent.len hbase
    rw [hptr] at hsize
    have hle : n.toNat ≤ (s.size L.base).toNat := hsize
    omega
  | cons a v =>
    cases w with
    | nil =>
      obtain ⟨hpe, hfree⟩ := cons.inj heq
      exact ⟨[], [], p, a, v, hfree, fun m => by rw [← hpe]; rfl, rfl, hptr⟩
    | cons x w =>
      obtain ⟨hx, hfree⟩ := cons.inj heq
      refine ⟨w ++ [p], x :: w, p, a, v, ?_, fun m => ?_, rfl, hptr⟩
      · rw [hfree, append_assoc]
        rfl
      · rw [← hx, Layout.ring, append_assoc]
        rfl

section Take

variable {u v w : List Extent} (hfree : A.free = u ++ a :: v)
  (hring : ∀ m, L.ring (u ++ m) = w ++ p :: m)

include hfree hring

/-- A whole block. -/
theorem takeAll : Mem L { s.set p.addr ⟨s.ptr a.addr, s.size p.addr⟩ with freep := p.addr }
    (A.alloc hfree) := by
  have heq : L.ring A.free = w ++ p :: a :: v := hfree ▸ hring (a :: v)
  have hp : p ∈ L.ring A.free := heq ▸ mem_append_cons_self
  have ha : a ∈ A.free := hfree ▸ mem_append_cons_self
  refine ⟨?_, ?_, fun c hc => ?_, fun c hc => ?_⟩
  · have hholds := Holds.unlink (heq ▸ h.holds) (heq ▸ h.spread.nodup)
    show State.Holds _ (L.ring (u ++ v)) _
    rw [hring]
    exact ⟨hholds.links, hholds.sized⟩
  · show p.addr ∈ (L.ring (u ++ v)).map addr
    rw [hring]
    exact mem_map_of_mem mem_append_cons_self
  · show (s.set p.addr _).block c.addr = c
    rcases mem_cons.mp hc with rfl | hc
    · rw [block_congr (set_hdr_of_ne _ (h.ptr_of_next heq).2.ne')]
      exact h.holds.sized c (.tail _ ha)
    · rw [block_congr (set_hdr_of_ne _ (h.live_addr_ne hc hp)), h.sized c hc]
  · rcases mem_append.mp hc with hc | hc
    · exact h.above c (mem_append_left _ (Arena.mem_free_of_middle hfree hc))
    · rcases mem_cons.mp hc with rfl | hc
      · exact h.above c (mem_append_left _ ha)
      · exact h.above c (mem_append_right _ hc)

/-- The end of a block. -/
theorem takeEnd {r n : UInt32} {y : ℕ} (hk : 0 < unit * r.toNat) (hk' : unit * r.toNat < a.len)
    (hn : unit * r.toNat + unit * n.toNat = a.len) :
    Mem L { (s.set a.addr ⟨s.ptr a.addr, r⟩).set (a.addr + unit * r.toNat) ⟨y, n⟩ with
      freep := p.addr } (A.split hfree (unit * r.toNat) hk hk') := by
  have heq : L.ring A.free = (w ++ [p]) ++ a :: v := by
    rw [append_assoc]
    exact hfree ▸ hring (a :: v)
  have ha : a ∈ A.free := hfree ▸ mem_append_cons_self
  have habove := h.above a (mem_append_left _ ha)
  have hlen : (a.high (unit * r.toNat)).len = unit * n.toNat := Nat.sub_eq_of_eq_add' hn.symm
  have hring' : L.ring (A.split hfree (unit * r.toNat) hk hk').free =
      (w ++ [p]) ++ a.low (unit * r.toNat) :: v := by
    rw [append_assoc]
    exact hring (a.low (unit * r.toNat) :: v)
  -- the new header is in no other block
  have hnew : ∀ c ∈ L.ring (A.split hfree (unit * r.toNat) hk hk').free,
      c.addr ≠ (a.high (unit * r.toNat)).addr := by
    refine addr_ne_of_mem_ring (Nat.sub_pos_of_lt hk') ?_ fun c hc =>
      (A.split hfree (unit * r.toNat) hk hk').free_live c hc _ (.head _)
    show L.base < a.addr + unit * r.toNat
    omega
  refine ⟨?_, ?_, fun c hc => ?_, fun c hc => ?_⟩
  · have hsized := Holds.resize (heq ▸ h.holds) (heq ▸ h.spread.nodup) r
    have hholds : ((s.set a.addr ⟨s.ptr a.addr, r⟩).set (a.addr + unit * r.toNat) ⟨y, n⟩).Holds
        (L.ring (A.split hfree (unit * r.toNat) hk hk').free) L.base := by
      rw [hring']
      exact hsized.congr fun c hc => set_hdr_of_ne _ (hnew c (hring' ▸ hc))
    exact ⟨hholds.links, hholds.sized⟩
  · rw [hring']
    exact mem_map_of_mem (mem_append_left _ (mem_append_right _
      (.head _)))
  · show ((s.set a.addr ⟨s.ptr a.addr, r⟩).set (a.addr + unit * r.toNat) ⟨y, n⟩).block c.addr = c
    rcases mem_cons.mp hc with rfl | hc
    · exact (block_set ..).trans (by rw [← hlen]; rfl)
    · have hca : c.addr ≠ a.addr := h.live_addr_ne hc (.tail _ ha)
      have hcq : c.addr ≠ a.addr + unit * r.toNat :=
        ((pairwise_cons.mp (A.split hfree (unit * r.toNat) hk hk').apart).1 c hc).symm.addr_ne
          (A.pos_live hc) (Nat.sub_pos_of_lt hk')
      rw [block_congr (set_hdr_of_ne _ hcq), block_congr (set_hdr_of_ne _ hca), h.sized c hc]
  · rcases mem_append.mp hc with hc | hc
    · rcases mem_append.mp hc with hc | hc
      · exact h.above c (mem_append_left _ (hfree ▸ mem_append_left _ hc))
      · rcases mem_cons.mp hc with rfl | hc
        · exact habove
        · exact h.above c (mem_append_left _
            (hfree ▸ mem_append_right _ (.tail _ hc)))
    · rcases mem_cons.mp hc with rfl | hc
      · exact habove.trans (Nat.le_add_right ..)
      · exact h.above c (mem_append_right _ hc)

end Take

/-- **`malloc` takes a block**, or the end of one. -/
theorem take {n : UInt32} (hn : 0 < n.toNat) (hprev : prevp ∈ (L.ring A.free).map addr)
    (hsize : n ≤ s.size (s.ptr prevp)) :
    ∃ (A' : Arena) (b : Extent), Mem L (s.take n prevp (s.ptr prevp)).2 A' ∧
      A'.live = b :: A.live ∧ (s.take n prevp (s.ptr prevp)).1 = b.addr + unit ∧
      b.len = unit * n.toNat ∧ (∀ x, Covered A'.all x ↔ Covered A.all x) ∧
      total A'.all = total A.all := by
  obtain ⟨u, w, p, a, v, hfree, hring, rfl, hptr⟩ := h.exists_free hn hprev hsize
  have ha : a ∈ A.free := hfree ▸ mem_append_cons_self
  have hlen : 16 * (s.size a.addr).toNat = a.len :=
    congrArg Extent.len (h.holds.sized a (.tail _ ha))
  rw [hptr] at hsize ⊢
  rw [State.take]
  by_cases hall : s.size a.addr = n
  · rw [if_pos hall]
    refine ⟨A.alloc hfree, a, h.takeAll hfree hring, rfl, rfl, ?_, fun x =>
      Arena.covered_alloc hfree, Arena.total_alloc hfree⟩
    rw [← hlen, hall]
  · have hle : n.toNat ≤ (s.size a.addr).toNat := hsize
    have hne : (s.size a.addr).toNat ≠ n.toNat := fun heq => hall (UInt32.toNat_inj.mp heq)
    have hrest : (s.size a.addr - n).toNat = (s.size a.addr).toNat - n.toNat :=
      UInt32.toNat_sub_of_le _ _ hsize
    have hk : 0 < unit * (s.size a.addr - n).toNat := by
      show 0 < 16 * _
      omega
    have hk' : unit * (s.size a.addr - n).toNat < a.len := by
      show 16 * _ < _
      omega
    have hsum : unit * (s.size a.addr - n).toNat + unit * n.toNat = a.len := by
      show 16 * _ + 16 * _ = _
      omega
    rw [if_neg hall]
    exact ⟨A.split hfree _ hk hk', a.high _, h.takeEnd hfree hring hk hk' hsum, rfl, rfl,
      Nat.sub_eq_of_eq_add' hsum.symm, fun x => Arena.covered_split hfree hk hk',
      Arena.total_split hfree hk hk'⟩

end Mem

end State

end Heap

end TrinityXv6
