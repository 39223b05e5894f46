import TrinityXv6.Disk.Virtio

/-!
# Descriptors and chains

What the functions of the driver that work on descriptors do, and what the device reads in the
chain that `virtio_disk_rw` has filled in.
-/

namespace TrinityXv6

namespace Virtio

open Threads Command
open Function (update update_comm update_eq_self update_idem update_of_ne update_self)

variable {ι κ β : Type} {s s' : State ι κ β} {r : Request β}

/-! ## Indices in memory -/

@[simp] theorem descId_val (i : DescId) : descId i.val = some i := by
  simp [descId, i.isLt]

@[simp] theorem id16_toNat (i : DescId) : (id16 i).toNat = i.val := by
  have : i.val < 8 := i.isLt
  simp only [id16, UInt16.toNat_ofNat']
  omega

@[simp] theorem id32_toNat (i : DescId) : (id32 i).toNat = i.val := by
  have : i.val < 8 := i.isLt
  simp only [id32, UInt32.toNat_ofNat']
  omega

/-! ## Taking descriptors -/

/-- A state in which some descriptors are taken. -/
def taking (s : State ι κ β) (i : DescId) : State ι κ β :=
  { s with free := update s.free i false }

/-- A state in which a descriptor has been given back. -/
def freeing (s : State ι κ β) (i : DescId) : State ι κ β :=
  { s with
    desc := update s.desc i Desc.zero
    free := update s.free i true }

theorem allocDesc_cases (s : State ι κ β) :
    (∃ i, s.free i = true ∧ allocDesc s = .ok (some i, taking s i)) ∨
      allocDesc s = .ok (none, s) := by
  unfold allocDesc
  cases h : (List.finRange num).find? s.free with
  | none => exact .inr rfl
  | some i => exact .inl ⟨i, List.find?_some h, rfl⟩

variable {i x : DescId}

theorem freeDesc_eq (h : s.free i = false) : freeDesc i.val s = .ok ((), freeing s i) := by
  have hi : (⟨i.val, i.isLt⟩ : DescId) = i := rfl
  unfold freeDesc
  rw [dif_pos i.isLt, hi, h]
  rfl

/-- What was taken and given back is as it was. -/
theorem freeing_taking_free (h : s.free i = true) : (freeing (taking s i) i).free = s.free := by
  show update (update s.free i false) i true = s.free
  rw [update_idem, ← h, update_eq_self]

theorem freeing_taking (h : s.free i = true) (hz : s.desc i = Desc.zero) :
    freeing (taking s i) i = s := by
  have hfree := freeing_taking_free h
  have hdesc : (freeing (taking s i) i).desc = s.desc := by
    show update s.desc i Desc.zero = s.desc
    rw [← hz, update_eq_self]
  cases s
  exact congrArg₂ (fun f d => State.mk d _ _ f _ _ _ _ _ _ _ _) hfree hdesc

theorem freeing_taking_comm {j : DescId} (h : i ≠ j) :
    freeing (taking s j) i = taking (freeing s i) j := by
  unfold freeing taking
  rw [update_comm h]

/-- The descriptors `i`, `j` and `k` have been taken. -/
structure Took (s s' : State ι κ β) (i j k : DescId) : Prop where
  ne₁₂ : i ≠ j
  ne₁₃ : i ≠ k
  ne₂₃ : j ≠ k
  free₁ : s.free i = true
  free₂ : s.free j = true
  free₃ : s.free k = true
  eq : s' = taking (taking (taking s i) j) k

theorem ne_of_taking {j : DescId} (h : (taking s i).free j = true) : i ≠ j ∧ s.free j = true := by
  by_cases hij : j = i
  · subst hij
    have : update s.free j false j = true := h
    rw [update_self] at this
    cases this
  · refine ⟨Ne.symm hij, ?_⟩
    have : update s.free i false j = true := h
    rwa [update_of_ne hij] at this

/-- **`alloc3_desc`** takes three descriptors, or it has given back what it took. -/
theorem alloc3Desc_cases (s : State ι κ β) :
    (∃ i j k s', alloc3Desc s = .ok (some (i, j, k), s') ∧ Took s s' i j k) ∨
      ∃ s', alloc3Desc s = .ok (none, s') ∧ s'.free = s.free ∧
        ((∀ x, s.free x = true → s.desc x = Desc.zero) → s' = s) := by
  unfold alloc3Desc
  rcases allocDesc_cases s with ⟨i, hi, h₁⟩ | h₁
  · rw [bind_of_ok h₁]
    dsimp only
    have hti : (taking s i).free i = false := update_self ..
    rcases allocDesc_cases (taking s i) with ⟨j, hj, h₂⟩ | h₂
    · rw [bind_of_ok h₂]
      dsimp only
      obtain ⟨hij, hj'⟩ := ne_of_taking hj
      rcases allocDesc_cases (taking (taking s i) j) with ⟨k, hk, h₃⟩ | h₃
      · left
        obtain ⟨hjk, hk'⟩ := ne_of_taking hk
        obtain ⟨hik, hk''⟩ := ne_of_taking hk'
        rw [bind_of_ok h₃]
        exact ⟨i, j, k, _, rfl, hij, hik, hjk, hi, hj', hk'', rfl⟩
      · right
        rw [bind_of_ok h₃]
        dsimp only
        -- the two that were taken are given back in the same order
        have hfi : (taking (taking s i) j).free i = false := by
          rw [show (taking (taking s i) j).free i = update (taking s i).free j false i
            from rfl, update_of_ne hij, hti]
        have hswap : freeing (taking (taking s i) j) i = taking (freeing (taking s i) i) j :=
          freeing_taking_comm hij
        have hfj : (freeing (taking (taking s i) j) i).free j = false := by
          rw [hswap]
          exact update_self ..
        rw [bind_of_ok (freeDesc_eq hfi), bind_of_ok (freeDesc_eq hfj)]
        refine ⟨_, rfl, ?_, fun hz => ?_⟩
        · rw [hswap, freeing_taking_free, freeing_taking_free hi]
          rw [freeing_taking_free hi, hj']
        · rw [hswap, freeing_taking hi (hz i hi), freeing_taking hj' (hz j hj')]
    · right
      rw [bind_of_ok h₂]
      dsimp only
      rw [bind_of_ok (freeDesc_eq hti)]
      exact ⟨_, rfl, freeing_taking_free hi, fun hz => freeing_taking hi (hz i hi)⟩
  · right
    rw [bind_of_ok h₁]
    exact ⟨s, rfl, rfl, fun _ => rfl⟩

/-- A failed `alloc3_desc` leaves no trace where free descriptors are zero. -/
theorem alloc3Desc_fail (hz : ∀ x, s.free x = true → s.desc x = Desc.zero)
    (h : alloc3Desc s = .ok (none, s')) : s' = s := by
  rcases alloc3Desc_cases s with ⟨i, j, k, s₁, h₁, -⟩ | ⟨s₁, h₁, -, heq⟩
  · rw [h₁] at h
    cases h
  · rw [h₁] at h
    cases h
    exact heq hz

/-! ## The chain of a request -/

/-- The descriptors of a request. -/
def Request.ids (r : Request β) : List DescId := [r.head, r.data, r.status]

/-- The descriptors of a request are linked. -/
structure Linked (s : State ι κ β) (r : Request β) : Prop where
  head_ne_data : r.head ≠ r.data
  head_ne_status : r.head ≠ r.status
  data_ne_status : r.data ≠ r.status
  taken : ∀ x ∈ r.ids, s.free x = false
  head : s.desc r.head = headDesc r
  data : s.desc r.data = dataDesc r
  status : s.desc r.status = statusDesc r

/-- A request is in the driver's tables. -/
structure Chain (s : State ι κ β) (r : Request β) : Prop extends Linked s r where
  ops : s.ops r.head = blkReq r
  info : (s.info r.head).b = some r.b

theorem Request.mem_ids : x ∈ r.ids ↔ x = r.head ∨ x = r.data ∨ x = r.status := by
  simp [Request.ids]

/-- A chain is unaffected by what happens outside of it. -/
theorem Linked.congr (h : Linked s r) (hfree : ∀ x ∈ r.ids, s'.free x = s.free x)
    (hdesc : ∀ x ∈ r.ids, s'.desc x = s.desc x) : Linked s' r where
  head_ne_data := h.head_ne_data
  head_ne_status := h.head_ne_status
  data_ne_status := h.data_ne_status
  taken x hx := (hfree x hx).trans (h.taken x hx)
  head := (hdesc _ (Request.mem_ids.mpr (.inl rfl))).trans h.head
  data := (hdesc _ (Request.mem_ids.mpr (.inr (.inl rfl)))).trans h.data
  status := (hdesc _ (Request.mem_ids.mpr (.inr (.inr rfl)))).trans h.status

theorem Chain.congr (h : Chain s r) (hfree : ∀ x ∈ r.ids, s'.free x = s.free x)
    (hdesc : ∀ x ∈ r.ids, s'.desc x = s.desc x) (hops : s'.ops r.head = s.ops r.head)
    (hinfo : (s'.info r.head).b = (s.info r.head).b) : Chain s' r where
  toLinked := h.toLinked.congr hfree hdesc
  ops := hops.trans h.ops
  info := hinfo.trans h.info

/-- The descriptors from `i` on, as `next` links them, at most so many. -/
def chainFrom (desc : DescId → Desc β) : (fuel : ℕ) → DescId → List DescId
  | 0, _ => []
  | fuel + 1, i =>
    if (desc i).flags &&& descNext ≠ 0 then
      match descId (desc i).next.toNat with
      | some j => i :: chainFrom desc fuel j
      | none => [i]
    else [i]

theorem headDesc_next (r : Request β) : (headDesc r).flags &&& descNext ≠ 0 := by
  show descNext &&& descNext ≠ 0
  decide

theorem dataDesc_next (r : Request β) : (dataDesc r).flags &&& descNext ≠ 0 := by
  show ((if r.write then 0 else descWrite) ||| descNext) &&& descNext ≠ 0
  cases r.write <;> decide

theorem statusDesc_next (r : Request β) : ¬ (statusDesc r).flags &&& descNext ≠ 0 := by
  show ¬ descWrite &&& descNext ≠ 0
  decide

theorem Linked.chainFrom (h : Linked s r) : chainFrom s.desc num r.head = r.ids := by
  rw [Virtio.chainFrom, h.head, if_pos (headDesc_next r)]
  show (match descId (id16 r.data).toNat with
    | some j => r.head :: Virtio.chainFrom s.desc 7 j
    | none => [r.head]) = r.ids
  rw [id16_toNat, descId_val]
  dsimp only
  rw [Virtio.chainFrom, h.data, if_pos (dataDesc_next r)]
  show r.head :: (match descId (id16 r.status).toNat with
    | some j => r.data :: Virtio.chainFrom s.desc 6 j
    | none => [r.data]) = r.ids
  rw [id16_toNat, descId_val]
  dsimp only
  rw [Virtio.chainFrom, h.status, if_neg (statusDesc_next r)]
  rfl

/-- One turn of `free_chain`. -/
theorem freeChain_succ {fuel : ℕ} (h : s.free i = false) : freeChain (fuel + 1) i.val s =
      if (s.desc i).flags &&& descNext ≠ 0 then freeChain fuel (s.desc i).next.toNat (freeing s i)
      else .ok ((), freeing s i) := by
  rw [freeChain, get_bind, dif_pos i.isLt, bind_of_ok (freeDesc_eq h)]
  by_cases hn : (s.desc i).flags &&& descNext ≠ 0
  · rw [if_pos hn, if_pos hn]
  · rw [if_neg hn, if_neg hn]
    rfl

theorem freeing_free_of_ne (h : x ≠ i) : (freeing s i).free x = s.free x :=
  update_of_ne h ..

theorem freeing_desc_of_ne (h : x ≠ i) : (freeing s i).desc x = s.desc x :=
  update_of_ne h ..

/-- The state in which the descriptors of a request have been given back. -/
def giveBack (r : Request β) (s : State ι κ β) : State ι κ β :=
  freeing (freeing (freeing s r.head) r.data) r.status

/-- **`free_chain`** gives the chain of a request back. -/
theorem Linked.freeChain (h : Linked s r) :
    freeChain (num + 1) r.head.val s = .ok ((), giveBack r s) := by
  have h₁ : s.free r.head = false := h.taken _ (by simp [Request.ids])
  have h₂ : (freeing s r.head).free r.data = false := by
    rw [freeing_free_of_ne h.head_ne_data.symm]
    exact h.taken _ (by simp [Request.ids])
  have h₃ : (freeing (freeing s r.head) r.data).free r.status = false := by
    rw [freeing_free_of_ne h.data_ne_status.symm, freeing_free_of_ne h.head_ne_status.symm]
    exact h.taken _ (by simp [Request.ids])
  have hd₂ : (freeing s r.head).desc r.data = dataDesc r := by
    rw [freeing_desc_of_ne h.head_ne_data.symm, h.data]
  have hd₃ : (freeing (freeing s r.head) r.data).desc r.status = statusDesc r := by
    rw [freeing_desc_of_ne h.data_ne_status.symm, freeing_desc_of_ne h.head_ne_status.symm,
      h.status]
  rw [freeChain_succ h₁, h.head, if_pos (headDesc_next r),
    show (headDesc r).next.toNat = r.data.val from id16_toNat _, freeChain_succ h₂, hd₂,
    if_pos (dataDesc_next r), show (dataDesc r).next.toNat = r.status.val from id16_toNat _,
    freeChain_succ h₃, hd₃, if_neg (statusDesc_next r)]
  rfl

/-- What the end of `virtio_disk_rw` does. -/
def finished (t : Agent ι κ) (r : Request β) (s : State ι κ β) : State ι κ β :=
  { giveBack r { s with info := update s.info r.head { s.info r.head with b := none } } with
    vdiskLock := none
    hist := .returned t r :: s.hist }

/-- **The end of `virtio_disk_rw`** does not panic. -/
theorem Linked.finish (h : Linked s r) (t : Agent ι κ) :
    finish t r s = .ok ((), finished t r s) := by
  have hinfo : Linked { s with
      info := update s.info r.head { s.info r.head with b := none } } r :=
    h.congr (fun _ _ => rfl) fun _ _ => rfl
  rw [Virtio.finish, modify_bind, bind_of_ok hinfo.freeChain]
  rfl

/-- **The device** reads in a chain what `virtio_disk_rw` was asked for. -/
theorem Chain.readChain (h : Chain s r) : readChain s r.head = some (blkReq r, r.b, r.head) := by
  have htype : (if (blkReq r).type = blkIn then descWrite else 0) =
      if r.write then (0 : UInt16) else descWrite := by
    cases hw : r.write <;> simp [blkReq, hw, blkIn, blkOut]
  have hj : descId (headDesc r).next.toNat = some r.data := by
    rw [show (headDesc r).next.toNat = r.data.val from id16_toNat _, descId_val]
  have hk : descId (dataDesc r).next.toNat = some r.status := by
    rw [show (dataDesc r).next.toNat = r.status.val from id16_toNat _, descId_val]
  simp only [Virtio.readChain, h.head, hj, show (headDesc r).addr = .ops r.head from rfl, h.data,
    hk,
    show (dataDesc r).addr = .data r.b from rfl, h.status,
    show (statusDesc r).addr = .status r.head from rfl, h.ops, htype]
  exact if_pos ⟨rfl, rfl, rfl, rfl, rfl, rfl⟩

end Virtio

end TrinityXv6
