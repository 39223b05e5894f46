import TrinityXv6.Lib.Owns
import TrinityXv6.Fs.Inode

/-!
# What the inodes own

The blocks of an inode lie in numbered slots: the direct addresses, the address of the indirect
block, and the entries of the indirect block. `Owned` is the law of block ownership: a bit of the
bitmap is set exactly for the metadata and the blocks that some slot of some allocated inode holds,
and no two slots hold the same block. `HoleFree` says that the blocks of a file up to its size are
all there.

The edits of the code are given as functions on `Store`, and `Grows` collects what they do to the
inode that is edited and, above all, to the others.
-/

namespace TrinityXv6

namespace Fs

namespace Store

open Function (update update_self update_of_ne update_eq_self update_idem)

/-- The block number at index `j` of the indirect block `a`. -/
def entry (S : Store) (a j : ℕ) : ℕ := (Bytes.getU32 (S.data a) (4 * j)).toNat

/-- The block number in slot `k` of an inode. -/
def slotOf (S : Store) (d : Dinode) (k : ℕ) : ℕ :=
  if h : k < ndirect + 1 then (d.addrs ⟨k, h⟩).toNat
  else if d.addrs rootSlot = 0 ∨ nindirect ≤ k - (ndirect + 1) then 0
  else S.entry (d.addrs rootSlot).toNat (k - (ndirect + 1))

/-- The block number in a slot of an allocated inode, `0` for an inode that is free. -/
def addr (S : Store) (x : ℕ × ℕ) : ℕ :=
  if (S.din x.1).type = 0 then 0 else S.slotOf (S.din x.1) x.2

/-- The slot of block `bn` of a file. -/
def fileSlot (bn : ℕ) : ℕ := if bn < ndirect then bn else bn + 1

/-- Block `bn` of a file. -/
def fileBlock (S : Store) (i bn : ℕ) : ℕ := S.addr (i, fileSlot bn)

/-- Byte `p` of a file, zero where the file has no block. -/
def content (S : Store) (i p : ℕ) : UInt8 :=
  if S.fileBlock i (p / bsize) = 0 then 0
  else Bytes.byte (S.data (S.fileBlock i (p / bsize))) (p % bsize)

/-- **Block ownership.** -/
def Owned (sb : Superblock) (S : Store) : Prop := Owns sb.nmeta sb.size S.addr S.bit

/-- An inode has all blocks up to its size, and a size it can have. -/
structure HoleFreeAt (S : Store) (i : ℕ) : Prop where
  size_le : (S.din i).size.toNat ≤ maxFile * bsize
  mapped : ∀ bn, bn * bsize < (S.din i).size.toNat → S.fileBlock i bn ≠ 0

/-- Every allocated inode is hole-free. -/
def HoleFree (S : Store) : Prop := ∀ i, (S.din i).type ≠ 0 → S.HoleFreeAt i

variable {sb : Superblock} {S S' S'' : Store} {i j k b bn p : ℕ}

/-! ## Slots -/

theorem addr_of_free (h : (S.din i).type = 0) (k : ℕ) : S.addr (i, k) = 0 := if_pos h

theorem addr_of_lt (ht : (S.din i).type ≠ 0) (k : Fin (ndirect + 1)) :
    S.addr (i, k) = ((S.din i).addrs k).toNat := by
  simp only [addr, if_neg ht, slotOf, dif_pos k.isLt]

theorem addr_entry (ht : (S.din i).type ≠ 0) (hj : j < nindirect) : S.addr (i, ndirect + 1 + j) =
      if S.addr (i, ndirect) = 0 then 0 else S.entry (S.addr (i, ndirect)) j := by
  have hroot : S.addr (i, ndirect) = ((S.din i).addrs rootSlot).toNat := addr_of_lt ht rootSlot
  have hsub : ndirect + 1 + j - (ndirect + 1) = j := by omega
  have hzero : (S.din i).addrs rootSlot = 0 ↔ ((S.din i).addrs rootSlot).toNat = 0 :=
    UInt32.toNat_inj.symm
  rw [hroot, addr, if_neg ht, slotOf, dif_neg (by omega), hsub]
  by_cases h0 : (S.din i).addrs rootSlot = 0
  · rw [if_pos (.inl h0), if_pos (hzero.mp h0)]
  · rw [if_neg (not_or.mpr ⟨h0, by omega⟩), if_neg (hzero.not.mp h0)]

theorem addr_of_ge (hk : ndirect + 1 + nindirect ≤ k) : S.addr (i, k) = 0 := by
  rw [addr]
  split
  · rfl
  · rw [slotOf, dif_neg (by omega), if_pos (.inr (by omega))]

/-- The three kinds of slots. -/
theorem slot_cases (k : ℕ) : k < ndirect + 1 ∨ (∃ j < nindirect, k = ndirect + 1 + j) ∨
    ndirect + 1 + nindirect ≤ k := by
  by_cases h : k < ndirect + 1
  · exact .inl h
  · by_cases h' : k < ndirect + 1 + nindirect
    · exact .inr (.inl ⟨k - (ndirect + 1), by omega, by omega⟩)
    · exact .inr (.inr (by omega))

/-- What the slots of an inode depend on. -/
theorem addr_congr (hd : S'.din i = S.din i) (hr : S.addr (i, ndirect) ≠ 0 →
    S'.data (S.addr (i, ndirect)) = S.data (S.addr (i, ndirect))) (k : ℕ) :
    S'.addr (i, k) = S.addr (i, k) := by
  by_cases ht : (S.din i).type = 0
  · rw [addr_of_free ht, addr_of_free (hd ▸ ht)]
  · have ht' : (S'.din i).type ≠ 0 := hd ▸ ht
    have hlow : ∀ k : Fin (ndirect + 1), S'.addr (i, k) = S.addr (i, k) := fun k => by
      rw [addr_of_lt ht, addr_of_lt ht', hd]
    rcases slot_cases k with hk | ⟨j, hj, rfl⟩ | hk
    · exact hlow ⟨k, hk⟩
    · have hroot : S'.addr (i, ndirect) = S.addr (i, ndirect) := hlow rootSlot
      rw [addr_entry ht hj, addr_entry ht' hj, hroot]
      split
      · rfl
      · rename_i h0
        rw [entry, entry, hr h0]
    · rw [addr_of_ge hk, addr_of_ge hk]

theorem fileSlot_inj {m n : ℕ} (h : fileSlot m = fileSlot n) : m = n := by
  simp only [fileSlot] at h
  split_ifs at h <;> omega

theorem fileSlot_ne (bn : ℕ) : fileSlot bn ≠ ndirect := by
  simp only [fileSlot]
  split_ifs <;> omega

theorem content_of_zero (h : S.fileBlock i (p / bsize) = 0) : S.content i p = 0 := if_pos h

theorem content_of_ne_zero (h : S.fileBlock i (p / bsize) ≠ 0) :
    S.content i p = Bytes.byte (S.data (S.fileBlock i (p / bsize))) (p % bsize) := if_neg h

/-- The bytes of an inode depend on its slots and the blocks in them. -/
theorem content_congr (ha : ∀ k, S'.addr (i, k) = S.addr (i, k))
    (hd : ∀ k, S.addr (i, k) ≠ 0 → S'.data (S.addr (i, k)) = S.data (S.addr (i, k))) (p : ℕ) :
    S'.content i p = S.content i p := by
  have hblk : S'.fileBlock i (p / bsize) = S.fileBlock i (p / bsize) := ha _
  by_cases h0 : S.fileBlock i (p / bsize) = 0
  · rw [content_of_zero h0, content_of_zero (hblk.trans h0)]
  · rw [content_of_ne_zero h0, content_of_ne_zero (by rwa [hblk]), hblk, fileBlock, hd _ h0]

theorem HoleFreeAt.congr (h : S.HoleFreeAt i) (hd : (S'.din i).size = (S.din i).size)
    (ha : ∀ k, S.addr (i, k) ≠ 0 → S'.addr (i, k) ≠ 0) : S'.HoleFreeAt i := by
  refine ⟨?_, fun bn hbn => ?_⟩
  · rw [hd]
    exact h.size_le
  · rw [hd] at hbn
    exact ha _ (h.mapped bn hbn)

/-! ## Edits -/

/-- Put an inode in place of another. -/
def edit (S : Store) (i : ℕ) (d : Dinode) : Store := { S with din := update S.din i d }

/-- Mark block `b` as used, and clear it. -/
def take (S : Store) (b : ℕ) : Store :=
  { S with bit := update S.bit b true, data := update S.data b fun _ => 0 }

/-- Change a data block. -/
def write (S : Store) (a : ℕ) (d : Blk) : Store := { S with data := update S.data a d }

/-- Set an address of an inode. -/
def putAddr (S : Store) (i : ℕ) (k : Fin (ndirect + 1)) (a : UInt32) : Store :=
  S.edit i { S.din i with addrs := update (S.din i).addrs k a }

/-- Set an entry of an indirect block. -/
def putEntry (S : Store) (r j : ℕ) (a : UInt32) : Store :=
  S.write r (Bytes.putU32 (S.data r) (4 * j) a)

@[simp] theorem edit_data (S : Store) (i : ℕ) (d : Dinode) : (S.edit i d).data = S.data := rfl

@[simp] theorem edit_din_self (S : Store) (i : ℕ) (d : Dinode) : (S.edit i d).din i = d :=
  update_self ..

theorem edit_din_of_ne (S : Store) (d : Dinode) (h : j ≠ i) : (S.edit i d).din j = S.din j :=
  update_of_ne h ..

@[simp] theorem take_din (S : Store) (b : ℕ) : (S.take b).din = S.din := rfl

@[simp] theorem write_din (S : Store) (a : ℕ) (d : Blk) : (S.write a d).din = S.din := rfl

theorem take_data_of_ne {a : ℕ} (h : a ≠ b) : (S.take b).data a = S.data a :=
  update_of_ne h ..

@[simp] theorem write_data_self (S : Store) (a : ℕ) (d : Blk) : (S.write a d).data a = d :=
  update_self ..

theorem write_data_of_ne {a c : ℕ} {d : Blk} (h : c ≠ a) : (S.write a d).data c = S.data c :=
  update_of_ne h ..

theorem edit_self (S : Store) (i : ℕ) : S.edit i (S.din i) = S := by
  simp only [edit, update_eq_self]

@[simp] theorem edit_edit (S : Store) (i : ℕ) (d e : Dinode) :
    (S.edit i d).edit i e = S.edit i e := by
  simp only [edit, update_idem]

theorem take_edit (S : Store) (i b : ℕ) (d : Dinode) : (S.edit i d).take b = (S.take b).edit i d :=
  rfl

theorem write_edit (S : Store) (i a : ℕ) (d : Dinode) (e : Blk) :
    (S.edit i d).write a e = (S.write a e).edit i d := rfl

theorem addr_edit_of_ne (S : Store) (d : Dinode) (h : j ≠ i) (k : ℕ) :
    (S.edit i d).addr (j, k) = S.addr (j, k) :=
  addr_congr (edit_din_of_ne S d h) (fun _ => rfl) k

/-- Fields of an inode other than its type and addresses do not matter to its slots. -/
theorem addr_edit {d : Dinode} (ht : d.type = (S.din i).type) (ha : d.addrs = (S.din i).addrs) :
    (S.edit i d).addr = S.addr := by
  funext ⟨j, k⟩
  by_cases hj : j = i
  · subst hj
    simp only [addr, edit_din_self, ht, slotOf, ha]
    rfl
  · exact addr_edit_of_ne S d hj k

/-- The slots of an inode without addresses. -/
theorem addr_of_zero (h : ∀ k, (S.din i).addrs k = 0) (k : ℕ) : S.addr (i, k) = 0 := by
  rw [addr]
  split
  · rfl
  · simp only [slotOf, h, UInt32.toNat_zero]
    split
    · rfl
    · rw [if_pos (.inl trivial)]

variable {a : UInt32}

/-- The slots of an inode with a first block only. -/
theorem addr_of_single (ht : (S.din i).type ≠ 0)
    (h : ∀ k, (S.din i).addrs k = if k.val = 0 then a else 0) (k : ℕ) :
    S.addr (i, k) = if k = 0 then a.toNat else 0 := by
  rcases slot_cases k with hk | ⟨j, hj, rfl⟩ | hk
  · rw [show S.addr (i, k) = _ from addr_of_lt ht ⟨k, hk⟩, h]
    split
    · rfl
    · rfl
  · have hroot : S.addr (i, ndirect) = 0 := by
      rw [show S.addr (i, ndirect) = _ from addr_of_lt ht rootSlot, h]
      rfl
    rw [addr_entry ht hj, if_pos hroot, if_neg (by omega)]
  · rw [addr_of_ge hk, if_neg (by omega)]

/-- Blocks that are not used are in no slot. -/
theorem Owned.addr_ne (h : S.Owned sb) (hb : S.bit b = false) (hb0 : b ≠ 0) (x : ℕ × ℕ) :
    S.addr x ≠ b :=
  h.ne_of_not_used hb0 hb x

theorem Owned.take_addr (h : S.Owned sb) (hb : S.bit b = false) (hb0 : b ≠ 0) :
    (S.take b).addr = S.addr := by
  funext ⟨j, k⟩
  exact addr_congr (by rfl) (fun _ => take_data_of_ne (h.addr_ne hb hb0 _)) k

theorem putAddr_addr (ht : (S.din i).type ≠ 0) {k : Fin (ndirect + 1)} (h0 : S.addr (i, k) = 0)
    (hz : S.data a.toNat = fun _ => 0) :
    (S.putAddr i k a).addr = update S.addr (i, k.val) a.toNat := by
  set S' := S.putAddr i k a with hS'
  have hdin : S'.din i = { S.din i with addrs := update (S.din i).addrs k a } :=
    edit_din_self ..
  have ht' : (S'.din i).type ≠ 0 := by rw [hdin]; exact ht
  have hda : (S'.din i).addrs = update (S.din i).addrs k a := by rw [hdin]
  have hlow : ∀ m : Fin (ndirect + 1),
      S'.addr (i, m) = update S.addr (i, k.val) a.toNat (i, m.val) := fun m => by
    rw [addr_of_lt ht', hda]
    by_cases hm : m = k
    · subst hm
      rw [update_self, update_self]
    · have hne : (i, m.val) ≠ (i, k.val) := fun h => hm (Fin.ext (by simpa using h))
      rw [update_of_ne hm, update_of_ne hne, addr_of_lt ht]
  funext ⟨j, m⟩
  by_cases hj : j = i
  · subst hj
    rcases slot_cases m with hm | ⟨e, he, rfl⟩ | hm
    · exact hlow ⟨m, hm⟩
    · have hne : (j, ndirect + 1 + e) ≠ (j, k.val) := by
        intro h
        have := k.isLt
        simp at h
        omega
      have hroot : S'.addr (j, ndirect) = update S.addr (j, k.val) a.toNat (j, ndirect) :=
        hlow rootSlot
      rw [update_of_ne hne, addr_entry ht he, addr_entry ht' he, hroot]
      by_cases hk : k = rootSlot
      · -- the new indirect block holds no entries yet
        subst hk
        have hnew : update S.addr (j, rootSlot.val) a.toNat (j, ndirect) = a.toNat :=
          update_self ..
        have hold : S.addr (j, ndirect) = 0 := h0
        rw [hnew, if_pos hold]
        split
        · rfl
        · show (Bytes.getU32 (S'.data a.toNat) (4 * e)).toNat = 0
          rw [show S'.data = S.data from rfl, hz, Bytes.getU32_zero]
          rfl
      · have hne' : ((j, ndirect) : ℕ × ℕ) ≠ (j, k.val) := fun h =>
          hk (Fin.ext (by simpa using h.symm))
        rw [update_of_ne hne']
        rfl
    · rw [addr_of_ge hm, update_of_ne, addr_of_ge hm]
      intro h
      have := k.isLt
      simp at h
      omega
  · rw [update_of_ne (by simp [hj])]
    exact addr_edit_of_ne S _ hj m

theorem Owned.putEntry_addr (h : S.Owned sb) (ht : (S.din i).type ≠ 0) (hj : j < nindirect)
    (hr : S.addr (i, ndirect) ≠ 0) (a : UInt32) : (S.putEntry (S.addr (i, ndirect)) j a).addr =
      update S.addr (i, ndirect + 1 + j) a.toNat := by
  set S' := S.putEntry (S.addr (i, ndirect)) j a with hS'
  have hlow : ∀ m : Fin (ndirect + 1), S'.addr (i, m) = S.addr (i, m) := fun m => by
    have ht' : (S'.din i).type ≠ 0 := ht
    rw [addr_of_lt ht, addr_of_lt ht']
    rfl
  funext ⟨i', m⟩
  by_cases hi : i' = i
  · subst hi
    rcases slot_cases m with hm | ⟨e, he, rfl⟩ | hm
    · rw [update_of_ne (by simp; omega)]
      exact hlow ⟨m, hm⟩
    · have hroot : S'.addr (i', ndirect) = S.addr (i', ndirect) := hlow rootSlot
      have ht' : (S'.din i').type ≠ 0 := ht
      rw [addr_entry ht' he, hroot, if_neg hr]
      have hdata : S'.data (S.addr (i', ndirect)) =
          Bytes.putU32 (S.data (S.addr (i', ndirect))) (4 * j) a := update_self ..
      have := nindirect_eq
      have := bsize_eq
      rw [entry, hdata]
      by_cases hej : e = j
      · subst hej
        rw [update_self, Bytes.getU32_putU32_self a (by omega)]
      · rw [update_of_ne (by simp; omega), Bytes.getU32_putU32_of_disjoint (by omega),
          addr_entry ht he, if_neg hr, entry]
    · rw [addr_of_ge hm, update_of_ne (by simp; omega), addr_of_ge hm]
  · rw [update_of_ne (by simp [hi])]
    refine addr_congr (by rfl) (fun hr' => ?_) m
    exact write_data_of_ne fun heq => hi (congrArg Prod.fst (h.inj _ _ hr' heq))

/-- A write to a block other than an indirect block leaves all slots alone. -/
theorem Owned.write_addr (h : S.Owned sb) (hk : k ≠ ndirect) (d : Blk) :
    (S.write (S.addr (i, k)) d).addr = S.addr := by
  funext ⟨j, m⟩
  refine addr_congr (by rfl) (fun hr => ?_) m
  exact write_data_of_ne fun heq => hk (congrArg Prod.snd (h.inj _ _ hr heq)).symm

/-! ## An inode takes blocks and changes its own -/

/-- Inode `i` may have taken free blocks and changed the contents of its own; the other inodes are
as they were. -/
structure Grows (sb : Superblock) (i : ℕ) (S S' : Store) : Prop where
  owned : S'.Owned sb
  din_of_ne : ∀ j, j ≠ i → S'.din j = S.din j
  same : S'.din i = { S.din i with size := (S'.din i).size, addrs := (S'.din i).addrs }
  addr_of_ne : ∀ j, j ≠ i → ∀ k, S'.addr (j, k) = S.addr (j, k)
  data_of_ne : ∀ j, j ≠ i → ∀ k, S.addr (j, k) ≠ 0 →
    S'.data (S.addr (j, k)) = S.data (S.addr (j, k))
  kept : ∀ k, S.addr (i, k) ≠ 0 → S'.addr (i, k) = S.addr (i, k)

theorem Grows.refl (h : S.Owned sb) (i : ℕ) : Grows sb i S S where
  owned := h
  din_of_ne _ _ := rfl
  same := rfl
  addr_of_ne _ _ _ := rfl
  data_of_ne _ _ _ _ := rfl
  kept _ _ := rfl

section

variable (h : Grows sb i S S')
include h

theorem Grows.trans (h' : Grows sb i S' S'') : Grows sb i S S'' where
  owned := h'.owned
  din_of_ne j hj := (h'.din_of_ne j hj).trans (h.din_of_ne j hj)
  same := by rw [h'.same, h.same]
  addr_of_ne j hj k := (h'.addr_of_ne j hj k).trans (h.addr_of_ne j hj k)
  data_of_ne j hj k h0 := by
    have := h'.data_of_ne j hj k (by rwa [h.addr_of_ne j hj])
    rw [h.addr_of_ne j hj] at this
    rw [this, h.data_of_ne j hj k h0]
  kept k h0 := by
    rw [h'.kept k (by rwa [h.kept k h0]), h.kept k h0]

theorem Grows.content_of_ne (hj : j ≠ i) (p : ℕ) : S'.content j p = S.content j p :=
  content_congr (h.addr_of_ne j hj) (h.data_of_ne j hj) p

theorem Grows.type_eq : (S'.din i).type = (S.din i).type := by
  rw [h.same]

theorem Grows.ne_zero (h0 : S.addr (i, k) ≠ 0) : S'.addr (i, k) ≠ 0 := by
  rwa [h.kept k h0]

/-- Hole-freeness of an inode that was not edited. -/
theorem Grows.holeFreeAt_of_ne (hj : j ≠ i) (hf : S.HoleFreeAt j) : S'.HoleFreeAt j :=
  hf.congr (by rw [h.din_of_ne j hj]) fun k h0 => by rwa [h.addr_of_ne j hj]

end

/-- Inode `i` took free blocks, which are zero, and nothing else changed. -/
structure Allocs (sb : Superblock) (i : ℕ) (S S' : Store) : Prop extends Grows sb i S S' where
  size : (S'.din i).size = (S.din i).size
  content : ∀ p, S'.content i p = S.content i p

theorem Allocs.refl (h : S.Owned sb) (i : ℕ) : Allocs sb i S S :=
  ⟨.refl h i, rfl, fun _ => rfl⟩

theorem Allocs.trans (h : Allocs sb i S S') (h' : Allocs sb i S' S'') : Allocs sb i S S'' :=
  ⟨h.toGrows.trans h'.toGrows, h'.size.trans h.size, fun p => (h'.content p).trans (h.content p)⟩

section

variable (h : S.Owned sb)
include h

/-- A block was taken for slot `k`: what this means for everybody. -/
theorem Allocs.of_addr (h0 : S.addr (i, k) = 0) (hb : b < sb.size) (hb0 : b ≠ 0)
    (hu : S.bit b = false) (hbit : S'.bit = update S.bit b true)
    (haddr : S'.addr = update S.addr (i, k) b) (hdin : ∀ j, j ≠ i → S'.din j = S.din j)
    (hsame : S'.din i = { S.din i with addrs := (S'.din i).addrs })
    (hdata : ∀ x, S.addr x ≠ 0 → x ≠ (i, ndirect) → S'.data (S.addr x) = S.data (S.addr x))
    (hzero : k ≠ ndirect → S'.data b = fun _ => 0) : Allocs sb i S S' where
  owned := by
    rw [Owned, haddr, hbit]
    exact Owns.alloc h h0 hb hb0 hu
  din_of_ne := hdin
  same := by rw [hsame]
  addr_of_ne j hj m := by rw [haddr, update_of_ne (by simp [hj])]
  data_of_ne j hj m hne := hdata _ hne (by simp [hj])
  kept m hne := by
    rw [haddr, update_of_ne]
    intro heq
    rw [heq] at hne
    exact hne h0
  size := by rw [hsame]
  content p := by
    have hroot : (i, fileSlot (p / bsize)) ≠ (i, ndirect) := by simpa using fileSlot_ne (p / bsize)
    by_cases hk : ((i, fileSlot (p / bsize)) : ℕ × ℕ) = (i, k)
    · -- the block that was taken: zero, as the bytes of a missing block are
      have hkd : k ≠ ndirect := fun h => hroot (by rw [hk, h])
      have hold : S.fileBlock i (p / bsize) = 0 := by rw [fileBlock, hk, h0]
      have hnew : S'.fileBlock i (p / bsize) = b := by
        rw [fileBlock, haddr, hk, update_self]
      rw [content_of_zero hold, content_of_ne_zero (by rwa [hnew]), hnew, hzero hkd]
      simp [Bytes.byte]
    · have hblk : S'.fileBlock i (p / bsize) = S.fileBlock i (p / bsize) := by
        rw [fileBlock, haddr, update_of_ne hk, fileBlock]
      by_cases hne : S.fileBlock i (p / bsize) = 0
      · rw [content_of_zero hne, content_of_zero (hblk.trans hne)]
      · rw [content_of_ne_zero hne, content_of_ne_zero (by rwa [hblk]), hblk, fileBlock,
          hdata _ hne hroot]

theorem Owned.takeAddr_addr (ht : (S.din i).type ≠ 0) {k : Fin (ndirect + 1)}
    (h0 : S.addr (i, k) = 0) (hb0 : a.toNat ≠ 0) (hu : S.bit a.toNat = false) :
    ((S.take a.toNat).putAddr i k a).addr = update S.addr (i, k.val) a.toNat := by
  rw [putAddr_addr (S := S.take a.toNat) ht (by rw [h.take_addr hu hb0, h0])
    (update_self ..), h.take_addr hu hb0]

/-- **A new block for an address.** -/
theorem Allocs.takeAddr (ht : (S.din i).type ≠ 0) {k : Fin (ndirect + 1)}
    (h0 : S.addr (i, k) = 0) (hb : a.toNat < sb.size) (hb0 : a.toNat ≠ 0)
    (hu : S.bit a.toNat = false) : Allocs sb i S ((S.take a.toNat).putAddr i k a) ∧
      ((S.take a.toNat).putAddr i k a).addr (i, k) = a.toNat := by
  have haddr := h.takeAddr_addr ht h0 hb0 hu
  refine ⟨Allocs.of_addr h h0 hb hb0 hu rfl haddr (fun j hj => edit_din_of_ne _ _ hj) ?_
    (fun x _ _ => take_data_of_ne (h.addr_ne hu hb0 x)) (fun _ => update_self ..), ?_⟩
  · simp only [putAddr, edit_din_self]
    rfl
  · rw [haddr, update_self]

theorem Owned.takeEntry_addr (ht : (S.din i).type ≠ 0) (hj : j < nindirect)
    (hr : S.addr (i, ndirect) ≠ 0) (hb0 : a.toNat ≠ 0) (hu : S.bit a.toNat = false) :
    ((S.take a.toNat).putEntry (S.addr (i, ndirect)) j a).addr =
      update S.addr (i, ndirect + 1 + j) a.toNat := by
  have htake := h.take_addr hu hb0
  -- the block is marked before it is entered, which takes it from the others all the same
  have hroots : ∀ (i' : ℕ) (m : ℕ), i' ≠ i → S.addr (i', ndirect) ≠ 0 →
      S.addr (i', ndirect) ≠ S.addr (i, ndirect) := fun i' m hi hr' heq =>
    hi (congrArg Prod.fst (h.inj _ _ hr' heq))
  funext ⟨i', m⟩
  by_cases hi : i' = i
  · subst hi
    have key := congrFun (Owned.putEntry_addr h ht hj hr a) (i', m)
    rw [← key]
    -- the indirect block itself is not the block that was taken
    have hne : S.addr (i', ndirect) ≠ a.toNat := h.addr_ne hu hb0 _
    refine addr_congr (by rfl) (fun _ => ?_) m
    have hroot : (S.putEntry (S.addr (i', ndirect)) j a).addr (i', ndirect) =
        S.addr (i', ndirect) := by
      rw [Owned.putEntry_addr h ht hj hr a, update_of_ne (by simp; omega)]
    rw [hroot]
    simp only [putEntry, write, update_self, take_data_of_ne hne]
  · rw [update_of_ne (by simp [hi]), ← htake]
    refine addr_congr (by rfl) (fun hr' => write_data_of_ne ?_) m
    rw [htake] at hr' ⊢
    exact hroots i' m hi hr'

/-- **A new block for an entry of the indirect block.** -/
theorem Allocs.takeEntry (ht : (S.din i).type ≠ 0) (hj : j < nindirect)
    (hr : S.addr (i, ndirect) ≠ 0) (h0 : S.addr (i, ndirect + 1 + j) = 0) (hb : a.toNat < sb.size)
    (hb0 : a.toNat ≠ 0) (hu : S.bit a.toNat = false) :
    Allocs sb i S ((S.take a.toNat).putEntry (S.addr (i, ndirect)) j a) ∧
      ((S.take a.toNat).putEntry (S.addr (i, ndirect)) j a).addr (i, ndirect + 1 + j) =
        a.toNat := by
  have haddr := h.takeEntry_addr ht hj hr hb0 hu
  refine ⟨Allocs.of_addr h h0 hb hb0 hu rfl haddr (fun _ _ => rfl) rfl (fun x hx hxr => ?_)
    (fun _ => ?_), ?_⟩
  · have hne : S.addr x ≠ S.addr (i, ndirect) := fun heq => hxr (h.inj _ _ hx heq)
    exact (write_data_of_ne hne).trans (take_data_of_ne (h.addr_ne hu hb0 x))
  · refine (write_data_of_ne (h.addr_ne hu hb0 _).symm).trans ?_
    exact update_self ..
  · rw [haddr, update_self]

/-! ## Writes to the blocks of a file -/

theorem Owned.fileBlock_write (i bn : ℕ) (d : Blk) : (S.write (S.fileBlock i bn) d).addr = S.addr :=
  h.write_addr (fileSlot_ne bn) d

/-- **A write to a block of a file.** -/
theorem Grows.write (i bn : ℕ) (d : Blk) : Grows sb i S (S.write (S.fileBlock i bn) d) where
  owned := by
    rw [Owned, h.fileBlock_write]
    exact h
  din_of_ne _ _ := rfl
  same := rfl
  addr_of_ne j _ k := by rw [h.fileBlock_write]
  data_of_ne j hj k hne := write_data_of_ne fun heq =>
    hj (congrArg Prod.fst (h.inj _ _ hne heq))
  kept k _ := by rw [h.fileBlock_write]

theorem content_write (h0 : S.fileBlock i bn ≠ 0) (d : Blk) (p : ℕ) :
    (S.write (S.fileBlock i bn) d).content i p =
      if p / bsize = bn then Bytes.byte d (p % bsize) else S.content i p := by
  have ha : (S.write (S.fileBlock i bn) d).fileBlock i (p / bsize) = S.fileBlock i (p / bsize) :=
    congrFun (h.fileBlock_write i bn d) _
  by_cases hp : p / bsize = bn
  · have hblk : (S.write (S.fileBlock i bn) d).fileBlock i (p / bsize) = S.fileBlock i bn := by
      rw [ha, hp]
    rw [if_pos hp, content_of_ne_zero (by rwa [hblk]), hblk, write_data_self]
  · rw [if_neg hp]
    by_cases hne : S.fileBlock i (p / bsize) = 0
    · rw [content_of_zero hne, content_of_zero (ha.trans hne)]
    · rw [content_of_ne_zero hne, content_of_ne_zero (by rwa [ha]), ha, write_data_of_ne]
      exact fun heq => hp (fileSlot_inj (congrArg Prod.snd (h.inj _ _ hne heq)))

end

theorem addr_setSize (S : Store) (i : ℕ) (n : UInt32) :
    (S.edit i { S.din i with size := n }).addr = S.addr := addr_edit rfl rfl

theorem content_setSize (S : Store) (i : ℕ) (n : UInt32) :
    (S.edit i { S.din i with size := n }).content = S.content := by
  funext j p
  have ha := S.addr_setSize i n
  exact content_congr (fun k => congrFun ha (j, k)) (fun _ _ => rfl) p

/-- A new size leaves the slots alone. -/
theorem Grows.setSize (h : S.Owned sb) (i : ℕ) (n : UInt32) :
    Grows sb i S (S.edit i { S.din i with size := n }) := by
  have ha := S.addr_setSize i n
  refine ⟨?_, fun j hj => edit_din_of_ne S _ hj, ?_, fun j _ k => by rw [ha],
    fun _ _ _ _ => rfl, fun k _ => by rw [ha]⟩
  · rw [Owned, ha]
    exact h
  · rw [edit_din_self]

end Store

end Fs

end TrinityXv6
