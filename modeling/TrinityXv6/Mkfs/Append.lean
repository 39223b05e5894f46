import Mathlib.Data.List.GetD
import TrinityXv6.Fs.FileSpec
import TrinityXv6.Mkfs.Image

/-!
# What `iappend` does

The image under construction is read as a `Fs.Store`, the same typed view of the disk as the
kernel's, with the counter `freeblock` in place of the bitmap that is written only in the end. In
that view a block from the counter is a free block that is taken, and block ownership is an
invariant of the builder.

`iappend` keeps its inode in a variable until the end, so that its loop is described by the view
with that inode in it.
-/

namespace TrinityXv6

namespace Mkfs

open Command Fs
open Store
open List
open Function (update update_self update_of_ne update_eq_self update_idem)

theorem geometry_nmeta (n : ℕ) : (geometry n).nmeta = nmeta :=
  Nat.sub_sub_self (show nmeta ≤ fssize by decide)

theorem nmeta_le {n a : ℕ} (h : nmeta ≤ a) : (geometry n).nmeta ≤ a :=
  (geometry_nmeta n).le.trans h

theorem geometry_sane {n : ℕ} (hn : n ≤ ipb * ninodeblocks) : (geometry n).Sane where
  inodes i hi := by
    have h : i < n := hi
    show i / 16 + 33 < 46
    have : n ≤ 208 := hn
    omega
  bitmap b hb := by
    have h : b < 2000 := hb
    have hb' : (geometry n).bblock b = b / 8192 + 46 := rfl
    rw [geometry_nmeta, nmeta_eq]
    omega
  size_le := by
    show 2000 ≤ 2 ^ 31
    omega
  size_pos := by
    show 0 < 2000
    omega

/-! ## Sectors -/

theorem sector_of_lt {a : ℕ} (h : a < 2 ^ 22) : sector a = a := by
  rw [sector]
  show a * 1024 % 2 ^ 32 / 1024 = a
  omega

variable {s s' : State} {n i a z : ℕ} {din din' : Dinode} {E : Abort → Prop}

/-- Replace a sector. -/
def State.set (s : State) (a : ℕ) (d : Blk) : State :=
  { s with sect := update s.sect a d }

/-- Count up `freeblock`. -/
def State.bump (s : State) : State := { s with freeblock := s.freeblock + 1 }

/-- Replace an inode, by `winode`. -/
def State.putInode (s : State) (i : ℕ) (x : Dinode) : State :=
  { s.set (sb.iblock i) (putDinode (s.sect (sb.iblock i)) (i % ipb) x) with
    inodeWrites := sb.iblock i :: s.inodeWrites }

@[simp] theorem State.set_sect_self (s : State) (a : ℕ) (d : Blk) : (s.set a d).sect a = d := by
  simp only [State.set, update_self]

theorem State.set_sect (s : State) {c : ℕ} (d : Blk) (h : c ≠ a) :
    (s.set a d).sect c = s.sect c := by
  simp only [State.set, update_of_ne h]

theorem State.putInode_sect (s : State) (x : Dinode) (h : a ≠ sb.iblock i) :
    (s.putInode i x).sect a = s.sect a := update_of_ne h ..

theorem rsect_eq (hs : s.nsect = fssize) (ha : a < fssize) : rsect a s = .ok (s.sect a, s) := by
  have := fssize_eq
  rw [rsect, sector_of_lt (by omega), if_pos (by omega)]

/-- The image ends where the file system does. -/
theorem rsect_error (hs : s.nsect = fssize) (ha : fssize ≤ a) (ha' : a < 2 ^ 22) :
    rsect a s = .error .read := by
  rw [rsect, sector_of_lt ha', if_neg (by omega)]

theorem wsect_eq (hs : s.nsect = fssize) (ha : a < fssize) (d : Blk) :
    wsect a d s = .ok ((), s.set a d) := by
  have := fssize_eq
  have hmax : max s.nsect (a + 1) = s.nsect := by omega
  rw [wsect, modify_apply, sector_of_lt (by omega), hmax]
  rfl

theorem iblock_lt (hn : n ≤ ipb * ninodeblocks) (hi : i < n) :
    sb.inodestart ≤ sb.iblock i ∧ sb.iblock i < sb.bmapstart :=
  ⟨Nat.le_add_left _ _, (geometry_sane hn).inodes i hi⟩

/-! ## The image as a store -/

/-- The image as a store, with the blocks below `freeblock` in use. -/
def State.view (n : ℕ) (s : State) : Store where
  bit b := decide (b < s.freeblock)
  din := (Store.of (geometry n) s.sect).din
  data := (Store.of (geometry n) s.sect).data

/-- The image as a store, with the inode that `iappend` has at hand. -/
def State.eff (n i z : ℕ) (din : Dinode) (s : State) : Store :=
  (s.view n).edit i { din with size := UInt32.ofNat z }

/-- What holds of the image apart from its files. -/
structure Clean (s : State) : Prop where
  nsect : s.nsect = fssize
  low : nmeta ≤ s.freeblock
  high : s.freeblock ≤ fssize
  zero : ∀ a, s.freeblock ≤ a → s.sect a = zeroes
  super : s.sect 1 = superBlock
  writes : ∀ b ∈ s.inodeWrites, sb.inodestart ≤ b ∧ b < sb.bmapstart

namespace State

theorem view_din (s : State) : (s.view n).din = (Store.of (geometry n) s.sect).din := by
  rw [view]

theorem view_store (s : State) : (s.view n).data = (Store.of (geometry n) s.sect).data := by
  rw [view]

theorem view_set (s : State) (hn : n ≤ ipb * ninodeblocks) (ha : nmeta ≤ a) (d : Blk) :
    (s.set a d).view n = (s.view n).write a d := by
  have h := of_update (m := s.sect) (geometry_sane hn) (nmeta_le ha) d
  refine Store.ext rfl ?_ ?_
  · rw [write_din, view_din, view_din, set, h]
  · rw [write, view_store, view_store, set, h]

theorem view_putInode (s : State) (hn : n ≤ ipb * ninodeblocks) (hi : i < n) (x : Dinode) :
    (s.putInode i x).view n = (s.view n).edit i x := by
  have h : Store.of (geometry n) (s.putInode i x).sect = _ :=
    of_putDinode (geometry_sane hn) hi x
  refine Store.ext rfl ?_ ?_
  · rw [edit, view_din, view_din, h]
  · rw [edit_data, view_store, view_store, h]

theorem view_data (s : State) (ha : nmeta ≤ a) : (s.view n).data a = s.sect a := by
  rw [view_store, of_data (nmeta_le ha)]

theorem view_bump (hc : Clean s) : s.bump.view n = (s.view n).take s.freeblock := by
  have hz : (s.view n).data s.freeblock = fun _ => 0 :=
    (s.view_data hc.low).trans (hc.zero _ le_rfl)
  refine Store.ext (funext fun b => ?_) rfl ?_
  · show decide (b < s.freeblock + 1) = update (s.view n).bit s.freeblock true b
    by_cases hb : b = s.freeblock
    · subst hb
      simp
    · have hiff : b < s.freeblock + 1 ↔ b < s.freeblock := by omega
      rw [update_of_ne hb]
      exact decide_eq_decide.mpr hiff
  · show (s.view n).data = update (s.view n).data s.freeblock fun _ => 0
    rw [← hz, update_eq_self]

@[simp] theorem eff_din_self (s : State) :
    (s.eff n i z din).din i = { din with size := UInt32.ofNat z } := edit_din_self ..

theorem eff_type (s : State) (ht : din.type ≠ 0) : ((s.eff n i z din).din i).type ≠ 0 := by
  rwa [eff_din_self]

theorem eff_addr (s : State) (ht : din.type ≠ 0) (k : Fin (ndirect + 1)) :
    (s.eff n i z din).addr (i, k) = (din.addrs k).toNat := by
  rw [addr_of_lt (s.eff_type ht), eff_din_self]

theorem eff_data (s : State) (ha : nmeta ≤ a) : (s.eff n i z din).data a = s.sect a := by
  rw [eff, edit_data, view_data s ha]

end State

namespace Clean

variable (h : Clean s)
include h

theorem bump (hroom : s.freeblock < fssize) : Clean s.bump where
  nsect := h.nsect
  low := h.low.trans (Nat.le_succ _)
  high := hroom
  zero a ha := h.zero a (Nat.le_of_succ_le ha)
  super := h.super
  writes := h.writes

theorem set (ha : nmeta ≤ a) (ha' : a < s.freeblock) (d : Blk) : Clean (s.set a d) where
  nsect := h.nsect
  low := h.low
  high := h.high
  zero b hb := by
    have hb' : s.freeblock ≤ b := hb
    rw [s.set_sect d (by omega), h.zero b hb']
  super := by
    have := nmeta_eq
    rw [s.set_sect d (by omega), h.super]
  writes := h.writes

section

variable (hn : n ≤ ipb * ninodeblocks) (hi : i < n)
include hn hi

theorem putInode (x : Dinode) : Clean (s.putInode i x) := by
  obtain ⟨hlo, hhi⟩ := iblock_lt hn hi
  have hlo' : 33 ≤ sb.iblock i := hlo
  have hhi' : sb.iblock i < 46 := hhi
  have := nmeta_eq
  have := h.low
  refine ⟨h.nsect, h.low, h.high, fun b hb => ?_, ?_, fun b hb => ?_⟩
  · have hb' : s.freeblock ≤ b := hb
    rw [s.putInode_sect x (by omega), h.zero b hb']
  · rw [s.putInode_sect x (by omega), h.super]
  · rcases mem_cons.mp hb with rfl | hb
    · exact ⟨hlo, hhi⟩
    · exact h.writes b hb

theorem rinode : Mkfs.rinode i s = .ok ((s.view n).din i, s) := by
  have hlt : sb.iblock i < fssize := (iblock_lt hn hi).2.trans (by decide)
  rw [Mkfs.rinode, bind_of_ok (rsect_eq h.nsect hlt)]
  have hdin := of_din (m := s.sect) (show i < (geometry n).ninodes from hi)
  exact congrArg (fun x => Except.ok (x, s)) hdin.symm

theorem winode (x : Dinode) : Mkfs.winode i x s = .ok ((), s.putInode i x) := by
  have hlt : sb.iblock i < fssize := (iblock_lt hn hi).2.trans (by decide)
  have hsect : sector (sb.iblock i) = sb.iblock i := sector_of_lt (hlt.trans (by decide))
  rw [Mkfs.winode, bind_of_ok (rsect_eq h.nsect hlt), modify_bind, hsect]
  exact wsect_eq (s := { s with inodeWrites := sb.iblock i :: s.inodeWrites }) h.nsect hlt _

end

end Clean

/-! ## One block more -/

/-- A slot of inode `i` has a block, which came from the counter if there was none. -/
structure Took (n i z slot : ℕ) (din din' : Dinode) (s s' : State) : Prop where
  allocs : Store.Allocs (geometry n) i (s.eff n i z din) (s'.eff n i z din')
  addr : ∃ a ≠ 0, (s'.eff n i z din').addr =
    update (s.eff n i z din).addr (i, slot) a
  count : s'.freeblock = s.freeblock + if (s.eff n i z din).addr (i, slot) = 0 then 1 else 0
  clean : Clean s'
  freeinode : s'.freeinode = s.freeinode

namespace Took

variable {slot k : ℕ}

theorem refl (hc : Clean s) (ho : (s.eff n i z din).Owned (geometry n))
    (h : (s.eff n i z din).addr (i, slot) ≠ 0) : Took n i z slot din din s s where
  allocs := .refl ho i
  addr := ⟨_, h, (update_eq_self _ _).symm⟩
  count := by rw [if_neg h, Nat.add_zero]
  clean := hc
  freeinode := rfl

section

variable (h : Took n i z slot din din' s s')
include h

theorem addr_ne : (s'.eff n i z din').addr (i, slot) ≠ 0 := by
  obtain ⟨a, ha, haddr⟩ := h.addr
  rwa [haddr, update_self]

theorem addr_of_ne (hk : k ≠ slot) :
    (s'.eff n i z din').addr (i, k) = (s.eff n i z din).addr (i, k) := by
  obtain ⟨a, -, haddr⟩ := h.addr
  rw [haddr, update_of_ne (by simpa using hk)]

theorem type_eq : din'.type = din.type := by
  have := h.allocs.type_eq
  rwa [State.eff_din_self, State.eff_din_self] at this

end

end Took

theorem toNat_freeblock (hc : Clean s) : (UInt32.ofNat s.freeblock).toNat = s.freeblock := by
  have := hc.high
  have := fssize_eq
  exact UInt32.toNat_ofNat_of_lt' (show s.freeblock < 2 ^ 32 by omega)

/-- In a full image it is the first number past the end. -/
theorem toNat_freeblock_full (hc : Clean s) (h : ¬ s.freeblock < fssize) :
    (UInt32.ofNat s.freeblock).toNat = fssize :=
  (toNat_freeblock hc).trans (hc.high.antisymm (not_lt.mp h))

/-- The new address is a free block. -/
theorem freeblock_free (n i z : ℕ) (din : Dinode) (hc : Clean s) :
    (UInt32.ofNat s.freeblock).toNat ≠ 0 ∧
    (s.eff n i z din).bit (UInt32.ofNat s.freeblock).toNat = false := by
  have := hc.low
  have := nmeta_eq
  rw [toNat_freeblock hc]
  exact ⟨by omega, decide_eq_false (lt_irrefl _)⟩

/-- **`din.addrs[k]`** -/
theorem addrFor_took (hc : Clean s) (ho : (s.eff n i z din).Owned (geometry n))
    (ht : din.type ≠ 0) (k : Fin (ndirect + 1))
    (hroom : (s.eff n i z din).addr (i, k) = 0 → s.freeblock < fssize) :
    ∃ din' s', addrFor din k s = .ok (din', s') ∧ Took n i z k din din' s s' := by
  have ht' := s.eff_type (n := n) (i := i) (z := z) ht
  have haddr := s.eff_addr (n := n) (i := i) (z := z) ht k
  by_cases h0 : din.addrs k = 0
  · have hz : (s.eff n i z din).addr (i, k) = 0 := by
      rw [haddr, h0]
      rfl
    have hlt := hroom hz
    have hnat := toNat_freeblock hc
    obtain ⟨hb0, hu⟩ := freeblock_free n i z din hc
    -- in the view, the counter takes a block and the inode gets its address
    have hstore : s.bump.eff n i z
        { din with addrs := update din.addrs k (UInt32.ofNat s.freeblock) } =
        ((s.eff n i z din).take (UInt32.ofNat s.freeblock).toNat).putAddr i k
          (UInt32.ofNat s.freeblock) := by
      rw [hnat, State.eff, State.view_bump hc, State.eff, take_edit, Store.putAddr,
        edit_edit, edit_din_self]
    refine ⟨_, s.bump, by rw [addrFor, if_pos h0]; rfl, ?_, ?_, ?_, hc.bump hlt, rfl⟩
    · rw [hstore]
      exact (Store.Allocs.takeAddr ho ht' hz (by rwa [hnat]) hb0 hu).1
    · refine ⟨_, hb0, ?_⟩
      rw [hstore]
      exact ho.takeAddr_addr ht' hz hb0 hu
    · rw [if_pos hz]
      rfl
  · have hne : (s.eff n i z din).addr (i, k) ≠ 0 := by
      rw [haddr]
      exact fun h => h0 (UInt32.toNat_inj.mp h)
    exact ⟨din, s, by rw [addrFor, if_neg h0]; rfl, .refl hc ho hne⟩

/-- The indirect block of the inode at hand. -/
theorem State.eff_root (s : State) (ht : din.type ≠ 0) :
    (s.eff n i z din).addr (i, ndirect) = (din.addrs rootSlot).toNat := s.eff_addr ht rootSlot

variable {ty : Int16} {j k : ℕ}

/-- An entry of the indirect block, in the view and in its sector. -/
theorem State.eff_entry (s : State) (ht : din.type ≠ 0) (hj : j < nindirect)
    (hr : (s.eff n i z din).addr (i, ndirect) ≠ 0)
    (hlo : nmeta ≤ (s.eff n i z din).addr (i, ndirect)) :
    (s.eff n i z din).addr (i, ndirect + 1 + j) =
      (Bytes.getU32 (s.sect ((s.eff n i z din).addr (i, ndirect))) (4 * j)).toNat := by
  rw [addr_entry (s.eff_type ht) hj, if_neg hr, Store.entry, s.eff_data hlo]

theorem entryFor_zero (hc : Clean s) {r : ℕ} (hr : r < fssize)
    (h0 : Bytes.getU32 (s.sect r) (4 * j) = 0) : entryFor r j s = .ok (UInt32.ofNat s.freeblock,
      s.bump.set r (Bytes.putU32 (s.sect r) (4 * j) (UInt32.ofNat s.freeblock))) := by
  rw [entryFor, bind_of_ok (rsect_eq hc.nsect hr), if_pos h0]
  exact (bind_of_ok rfl).trans (bind_of_ok (wsect_eq (s := s.bump) hc.nsect hr _))

/-- **`indirect[j]`** -/
theorem entryFor_took (hn : n ≤ ipb * ninodeblocks) (hc : Clean s)
    (ho : (s.eff n i z din).Owned (geometry n)) (ht : din.type ≠ 0) (hj : j < nindirect)
    (hr : (s.eff n i z din).addr (i, ndirect) ≠ 0)
    (hroom : (s.eff n i z din).addr (i, ndirect + 1 + j) = 0 → s.freeblock < fssize) :
    ∃ x s', entryFor (din.addrs rootSlot).toNat j s = .ok (x, s') ∧
      Took n i z (ndirect + 1 + j) din din s s' ∧
      x.toNat = (s'.eff n i z din).addr (i, ndirect + 1 + j) := by
  have ht' := s.eff_type (n := n) (i := i) (z := z) ht
  obtain ⟨hlo', hhi⟩ := ho.range _ hr
  have hlo := (geometry_nmeta n).ge.trans hlo'
  have hused : (s.eff n i z din).addr (i, ndirect) < s.freeblock :=
    of_decide_eq_true (ho.used_of_slot hr)
  have hent := s.eff_entry ht hj hr hlo
  rw [← s.eff_root ht]
  set r := (s.eff n i z din).addr (i, ndirect)
  by_cases h0 : Bytes.getU32 (s.sect r) (4 * j) = 0
  · have hz : (s.eff n i z din).addr (i, ndirect + 1 + j) = 0 := by
      rw [hent, h0]
      rfl
    have hlt := hroom hz
    have hnat := toNat_freeblock hc
    obtain ⟨hb0, hu⟩ := freeblock_free n i z din hc
    have hstore : (s.bump.set r
          (Bytes.putU32 (s.sect r) (4 * j) (UInt32.ofNat s.freeblock))).eff n i z din =
        ((s.eff n i z din).take (UInt32.ofNat s.freeblock).toNat).putEntry r j
          (UInt32.ofNat s.freeblock) := by
      have hkeep : ((s.eff n i z din).take s.freeblock).data r = s.sect r :=
        (take_data_of_ne hused.ne).trans (s.eff_data hlo)
      rw [hnat, putEntry, hkeep, State.eff, State.view_set _ hn hlo, State.view_bump hc,
        State.eff, take_edit, write_edit]
    have haddr := ho.takeEntry_addr ht' hj hr hb0 hu
    refine ⟨_, _, entryFor_zero hc hhi h0, ⟨?_, ?_, ?_, ?_, rfl⟩, ?_⟩
    · rw [hstore]
      exact (Store.Allocs.takeEntry ho ht' hj hr hz (by rwa [hnat]) hb0 hu).1
    · refine ⟨_, hb0, ?_⟩
      rw [hstore]
      exact haddr
    · rw [if_pos hz]
      rfl
    · exact (hc.bump hlt).set hlo (Nat.lt_succ_of_lt hused) _
    · rw [hstore, haddr, update_self]
  · have hne : (s.eff n i z din).addr (i, ndirect + 1 + j) ≠ 0 := by
      rw [hent]
      exact fun h => h0 (UInt32.toNat_inj.mp h)
    refine ⟨_, s, ?_, .refl hc ho hne, hent.symm⟩
    rw [entryFor, bind_of_ok (rsect_eq hc.nsect hhi), if_neg h0]
    rfl

/-! ## Files -/

/-- What an inode is to hold. -/
structure Node where
  type : Int16
  bytes : List UInt8

/-- The blocks of a file of `l` bytes, its indirect block included. -/
def blocksOf (l : ℕ) : ℕ := (l + (bsize - 1)) / bsize + if ndirect * bsize < l then 1 else 0

theorem blocksOf_mono {l m : ℕ} (h : l ≤ m) : blocksOf l ≤ blocksOf m := by
  have hdiv : (l + (bsize - 1)) / bsize ≤ (m + (bsize - 1)) / bsize :=
    Nat.div_le_div_right (by omega)
  simp only [blocksOf]
  split_ifs <;> omega

/-- When a byte more takes a block more. -/
theorem blocksOf_succ (l : ℕ) : blocksOf (l + 1) = blocksOf l +
    (if l % bsize = 0 then 1 else 0) + (if l = ndirect * bsize then 1 else 0) := by
  show (l + 1 + 1023) / 1024 + (if 12 * 1024 < l + 1 then 1 else 0) =
    (l + 1023) / 1024 + (if 12 * 1024 < l then 1 else 0) + (if l % 1024 = 0 then 1 else 0) +
      (if l = 12 * 1024 then 1 else 0)
  split_ifs <;> omega

/-- The bytes up to the end of the block of byte `l` take no other block. -/
theorem blocksOf_add {l m : ℕ} (hm : 0 < m) (h : l % bsize + m ≤ bsize) :
    blocksOf (l + m) = blocksOf (l + 1) := by
  have h' : l % 1024 + m ≤ 1024 := h
  show (l + m + 1023) / 1024 + (if 12 * 1024 < l + m then 1 else 0) =
    (l + 1 + 1023) / 1024 + (if 12 * 1024 < l + 1 then 1 else 0)
  have hdiv : (l + m + 1023) / 1024 = (l + 1 + 1023) / 1024 := by omega
  rw [hdiv]
  split_ifs <;> omega

/-- Inode `i` holds `x`: the blocks up to its length are there, and no others. -/
structure FileAt (S : Store) (i : ℕ) (x : Node) : Prop where
  type_ne : x.type ≠ 0
  length_le : x.bytes.length ≤ maxFile * bsize
  din : S.din i = ⟨x.type, 0, 0, 1, UInt32.ofNat x.bytes.length, (S.din i).addrs⟩
  mapped : ∀ bn, S.fileBlock i bn ≠ 0 ↔ bn * bsize < x.bytes.length
  root : S.addr (i, ndirect) ≠ 0 ↔ ndirect * bsize < x.bytes.length
  content : ∀ p, S.content i p = x.bytes.getD p 0

/-- The inodes hold what `F` says, and the others are zero. -/
structure Holds (n : ℕ) (S : Store) (F : ℕ → Option Node) : Prop where
  owned : S.Owned (geometry n)
  node : ∀ i x, F i = some x → FileAt S i x
  free : ∀ i, F i = none → S.din i = .zero

variable {S S' : Store} {F : ℕ → Option Node} {x : Node} {b p : List UInt8}

theorem FileAt.type_ne' (h : FileAt S i x) : (S.din i).type ≠ 0 := by
  rw [h.din]
  exact h.type_ne

theorem FileAt.eff_type_ne (h : FileAt (s.eff n i z din) i x) : din.type ≠ 0 := by
  have := h.type_ne'
  rwa [State.eff_din_self] at this

/-- The next byte of a file needs a new block where the last block is full. -/
theorem FileAt.addr_eq_zero (h : FileAt S i ⟨ty, b⟩) :
    S.addr (i, Store.fileSlot (b.length / bsize)) = 0 ↔ b.length % 1024 = 0 := by
  rw [← not_iff_not, ← ne_eq]
  refine (h.mapped (b.length / bsize)).trans ?_
  show b.length / 1024 * 1024 < b.length ↔ _
  omega

theorem FileAt.size (h : FileAt S i x) : (S.din i).size.toNat = x.bytes.length := by
  have := h.length_le
  have := maxFile_lt
  rw [h.din]
  exact UInt32.toNat_ofNat_of_lt' (show x.bytes.length < 2 ^ 32 by omega)

/-- A file that is as it was. -/
theorem FileAt.congr (h : FileAt S j x) (hdin : S'.din j = S.din j)
    (haddr : ∀ k, S'.addr (j, k) = S.addr (j, k)) (hcont : ∀ q, S'.content j q = S.content j q) :
    FileAt S' j x where
  type_ne := h.type_ne
  length_le := h.length_le
  din := by
    rw [hdin]
    exact h.din
  mapped bn := by
    rw [Store.fileBlock, haddr]
    exact h.mapped bn
  root := by
    rw [haddr]
    exact h.root
  content q := (hcont q).trans (h.content q)

/-- One file changes, and the others are as they were. -/
theorem Holds.change (h : Holds n S F) (ho : S'.Owned (geometry n)) (hi : FileAt S' i x)
    (hdin : ∀ j ≠ i, S'.din j = S.din j) (haddr : ∀ j ≠ i, ∀ k, S'.addr (j, k) = S.addr (j, k))
    (hcont : ∀ j ≠ i, ∀ q, S'.content j q = S.content j q) : Holds n S' (update F i (some x)) where
  owned := ho
  node j y hy := by
    by_cases hj : j = i
    · subst hj
      rw [update_self] at hy
      obtain rfl := Option.some.inj hy
      exact hi
    · rw [update_of_ne hj] at hy
      exact (h.node j y hy).congr (hdin j hj) (haddr j hj) (hcont j hj)
  free j hj := by
    have hne : j ≠ i := by
      rintro rfl
      rw [update_self] at hj
      cases hj
    rw [update_of_ne hne] at hj
    rw [hdin j hne, h.free j hj]

theorem Holds.grows (h : Holds n S F) (hG : Store.Grows (geometry n) i S S')
    (hi : FileAt S' i x) : Holds n S' (update F i (some x)) :=
  h.change hG.owned hi hG.din_of_ne hG.addr_of_ne fun _ hj => hG.content_of_ne hj

/-! ## Finding the block -/

/-- Block `fbn` of the file at hand is there, and nothing else about it changed. -/
structure Mapped (n i z fbn : ℕ) (din : Dinode) (s : State) (r : Dinode × UInt32) (s' : State) :
    Prop where
  allocs : Store.Allocs (geometry n) i (s.eff n i z din) (s'.eff n i z r.1)
  clean : Clean s'
  freeinode : s'.freeinode = s.freeinode
  block : r.2.toNat = (s'.eff n i z r.1).fileBlock i fbn
  mapped : ∀ bn, (s'.eff n i z r.1).fileBlock i bn ≠ 0 ↔
    (s.eff n i z din).fileBlock i bn ≠ 0 ∨ bn = fbn
  root : (s'.eff n i z r.1).addr (i, ndirect) ≠ 0 ↔
    (s.eff n i z din).addr (i, ndirect) ≠ 0 ∨ ndirect ≤ fbn
  count : s'.freeblock + blocksOf z = s.freeblock + blocksOf (z + 1)

/-- The image has no room for the block of byte `z` of a file. -/
def NoRoom (z : ℕ) (s : State) : Prop := fssize + blocksOf z < s.freeblock + blocksOf (z + 1)

/-- A block number past the end of the image, which `rsect` will refuse. -/
def Beyond (z : ℕ) (s : State) (r : Dinode × UInt32) (s' : State) : Prop :=
  fssize ≤ r.2.toNat ∧ r.2.toNat < 2 ^ 22 ∧ s'.nsect = fssize ∧ NoRoom z s

theorem blockFor_direct (hc : Clean s) (ho : (s.eff n i b.length din).Owned (geometry n))
    (hf : FileAt (s.eff n i b.length din) i ⟨ty, b⟩) (hd : b.length / bsize < ndirect) :
    Ends (blockFor din (b.length / bsize) s) (fun r s' =>
      Mapped n i b.length (b.length / bsize) din s r s' ∨ Beyond b.length s r s') E := by
  have hslot : Store.fileSlot (b.length / bsize) = b.length / bsize := if_pos hd
  have ht : din.type ≠ 0 := hf.eff_type_ne
  have hz := hf.addr_eq_zero
  rw [hslot] at hz
  have hnot : b.length ≠ ndirect * bsize := by
    have : b.length / 1024 < 12 := hd
    show b.length ≠ 12 * 1024
    omega
  have hsucc : blocksOf (b.length + 1) =
      blocksOf b.length + if b.length % 1024 = 0 then 1 else 0 := by
    rw [blocksOf_succ, if_neg hnot]
    rfl
  rw [blockFor, dif_pos hd]
  by_cases hroom : b.length % 1024 = 0 → s.freeblock < fssize
  · obtain ⟨din', s', hrun, hT⟩ := addrFor_took hc ho ht ⟨b.length / bsize, Nat.lt_succ_of_lt hd⟩
      fun h0 => hroom (hz.mp h0)
    rw [bind_of_ok hrun]
    refine .inl ⟨hT.allocs, hT.clean, hT.freeinode, ?_, fun bn => ?_, ?_, ?_⟩
    · rw [Store.fileBlock, hslot]
      exact (s'.eff_addr (hT.type_eq ▸ ht) ⟨b.length / bsize, Nat.lt_succ_of_lt hd⟩).symm
    · by_cases hbn : bn = b.length / bsize
      · subst hbn
        rw [Store.fileBlock, hslot]
        exact iff_of_true hT.addr_ne (.inr rfl)
      · have hne : Store.fileSlot bn ≠ b.length / bsize := fun h =>
          hbn (fileSlot_inj (h.trans hslot.symm))
        rw [Store.fileBlock, hT.addr_of_ne hne]
        exact (or_iff_left hbn).symm
    · have hne : ndirect ≠ b.length / bsize := hd.ne'
      rw [hT.addr_of_ne hne]
      exact (or_iff_left (not_le.mpr hd)).symm
    · have hcount := hT.count
      simp only [hz] at hcount
      omega
  · -- the counter has reached the end of the image
    obtain ⟨h0, hge⟩ := Classical.not_imp.mp hroom
    have hx := toNat_freeblock_full hc hge
    have hd0 : din.addrs ⟨b.length / bsize, Nat.lt_succ_of_lt hd⟩ = 0 := by
      have haddr := s.eff_addr (n := n) (i := i) (z := b.length) ht
        ⟨b.length / bsize, Nat.lt_succ_of_lt hd⟩
      exact UInt32.toNat_inj.mp (haddr.symm.trans (hz.mpr h0))
    rw [addrFor, if_pos hd0]
    refine .inr ⟨?_, ?_, hc.nsect, ?_⟩
    · show fssize ≤ (update din.addrs _ (UInt32.ofNat s.freeblock) _).toNat
      rw [update_self, hx]
    · show (update din.addrs _ (UInt32.ofNat s.freeblock) _).toNat < 2 ^ 22
      rw [update_self, hx]
      decide
    · rw [NoRoom, hsucc, if_pos h0]
      omega

theorem blockFor_indirect (hn : n ≤ ipb * ninodeblocks) (hc : Clean s)
    (ho : (s.eff n i b.length din).Owned (geometry n))
    (hf : FileAt (s.eff n i b.length din) i ⟨ty, b⟩) (hd : ¬ b.length / bsize < ndirect)
    (hlt : b.length / bsize < maxFile) (hE : NoRoom b.length s → ∀ e, E e) :
    Ends (blockFor din (b.length / bsize) s) (fun r s' =>
      Mapped n i b.length (b.length / bsize) din s r s' ∨ Beyond b.length s r s') E := by
  have hge : 12 ≤ b.length / 1024 := not_lt.mp hd
  have hj : b.length / bsize - ndirect < nindirect := by
    have : b.length / 1024 < 12 + 256 := hlt
    show b.length / 1024 - 12 < 256
    omega
  have hslot : Store.fileSlot (b.length / bsize) =
      ndirect + 1 + (b.length / bsize - ndirect) := by
    rw [Store.fileSlot, if_neg hd]
    omega
  have hne : ndirect + 1 + (b.length / bsize - ndirect) ≠ ndirect := by omega
  have ht : din.type ≠ 0 := hf.eff_type_ne
  have hz := hf.addr_eq_zero
  rw [hslot] at hz
  have hr : (s.eff n i b.length din).addr (i, ndirect) = 0 ↔ b.length = 12 * 1024 := by
    rw [← not_iff_not, ← ne_eq, hf.root]
    show 12 * 1024 < b.length ↔ _
    omega
  have hsucc : blocksOf (b.length + 1) = blocksOf b.length +
      (if b.length % 1024 = 0 then 1 else 0) + (if b.length = 12 * 1024 then 1 else 0) :=
    blocksOf_succ b.length
  rw [blockFor, dif_neg hd]
  by_cases hroom : b.length = 12 * 1024 → s.freeblock < fssize
  · obtain ⟨din₁, s₁, hrun, hT⟩ := addrFor_took hc ho ht rootSlot fun h0 => hroom (hr.mp h0)
    have hT : Took n i b.length ndirect din din₁ s s₁ := hT
    have ht₁ : din₁.type ≠ 0 := hT.type_eq ▸ ht
    have ho₁ := hT.allocs.owned
    have hcount := hT.count
    simp only [hr] at hcount
    have hz₁ : (s₁.eff n i b.length din₁).addr
        (i, ndirect + 1 + (b.length / bsize - ndirect)) = 0 ↔ b.length % 1024 = 0 := by
      rw [hT.addr_of_ne hne, hz]
    rw [bind_of_ok hrun]
    by_cases hroom₁ : b.length % 1024 = 0 → s₁.freeblock < fssize
    · obtain ⟨x, s', hrun₁, hU, hx⟩ := entryFor_took hn hT.clean ho₁ ht₁ hj hT.addr_ne
        fun h0 => hroom₁ (hz₁.mp h0)
      rw [bind_of_ok hrun₁]
      refine .inl ⟨hT.allocs.trans hU.allocs, hU.clean, hU.freeinode.trans hT.freeinode, ?_,
        fun bn => ?_, ?_, ?_⟩
      · rw [Store.fileBlock, hslot]
        exact hx
      · by_cases hbn : bn = b.length / bsize
        · subst hbn
          rw [Store.fileBlock, hslot]
          exact iff_of_true hU.addr_ne (.inr rfl)
        · have hne' : Store.fileSlot bn ≠ ndirect + 1 + (b.length / bsize - ndirect) := fun h =>
            hbn (fileSlot_inj (h.trans hslot.symm))
          rw [Store.fileBlock, hU.addr_of_ne hne', hT.addr_of_ne (fileSlot_ne bn)]
          exact (or_iff_left hbn).symm
      · rw [hU.addr_of_ne hne.symm]
        exact iff_of_true hT.addr_ne (.inr (not_lt.mp hd))
      · have hcount₁ := hU.count
        simp only [hz₁] at hcount₁
        omega
    · -- there is an indirect block, and no block for its entry
      obtain ⟨h0, hge⟩ := Classical.not_imp.mp hroom₁
      have hx := toNat_freeblock_full hT.clean hge
      have hlo := (geometry_nmeta n).ge.trans (ho₁.range _ hT.addr_ne).1
      have hent := s₁.eff_entry ht₁ hj hT.addr_ne hlo
      rw [hz₁.mpr h0] at hent
      have hrun₁ := entryFor_zero hT.clean (ho₁.range _ hT.addr_ne).2
        (UInt32.toNat_inj.mp hent.symm)
      rw [s₁.eff_root ht₁] at hrun₁
      rw [bind_of_ok hrun₁]
      refine .inr ⟨hx.ge, ?_, hT.clean.nsect, ?_⟩
      · rw [hx]
        decide
      · rw [NoRoom, hsucc, if_pos h0]
        omega
  · -- no block for the indirect block
    obtain ⟨h0, hge⟩ := Classical.not_imp.mp hroom
    have hx := toNat_freeblock_full hc hge
    have hd0 : din.addrs rootSlot = 0 := by
      have haddr := hr.mpr h0
      rw [s.eff_root ht] at haddr
      exact UInt32.toNat_inj.mp haddr
    have hread : rsect (update din.addrs rootSlot (UInt32.ofNat s.freeblock)
        rootSlot).toNat s.bump = .error .read := by
      rw [update_self, hx]
      exact rsect_error hc.nsect le_rfl (by decide)
    rw [addrFor, if_pos hd0]
    refine (bind_of_error (bind_of_error hread)).symm ▸ hE ?_ _
    rw [NoRoom, hsucc, if_pos h0]
    omega

/-! ## Appending -/

/-- The last block of the file with `k` bytes of `p` after those it holds. -/
def tailBlock (S : Store) (i : ℕ) (b p : List UInt8) (k : ℕ) : Blk :=
  Bytes.splice (S.data (S.fileBlock i (b.length / bsize))) (b.length % bsize) k fun q => p.getD q 0

/-- The store after one turn of the loop of `iappend`. -/
def appendTo (S : Store) (i : ℕ) (b p : List UInt8) (k : ℕ) : Store :=
  (S.write (S.fileBlock i (b.length / bsize)) (tailBlock S i b p k)).edit i
    { S.din i with size := UInt32.ofNat (b.length + k) }

theorem appendTo_addr (ho : S.Owned (geometry n)) (i : ℕ) (b p : List UInt8) (k : ℕ) :
    (appendTo S i b p k).addr = S.addr :=
  (addr_setSize _ i _).trans (ho.fileBlock_write i _ _)

theorem grows_appendTo (ho : S.Owned (geometry n)) (i : ℕ) (b p : List UInt8) (k : ℕ) :
    Store.Grows (geometry n) i S (appendTo S i b p k) := by
  have hwrite := Store.Grows.write ho i (b.length / bsize) (tailBlock S i b p k)
  exact hwrite.trans (Store.Grows.setSize hwrite.owned i _)

/-- The bytes of the file after one turn. -/
theorem content_appendTo (ho : S.Owned (geometry n)) (h0 : S.fileBlock i (b.length / bsize) ≠ 0)
    (hcont : ∀ q, S.content i q = b.getD q 0) (hk : k ≤ p.length)
    (hkb : b.length % bsize + k ≤ bsize) (q : ℕ) :
    (appendTo S i b p k).content i q = (b ++ p.take k).getD q 0 := by
  have hkb' : b.length % 1024 + k ≤ 1024 := hkb
  have hedit : (appendTo S i b p k).content i q =
      (S.write (S.fileBlock i (b.length / bsize)) (tailBlock S i b p k)).content i q :=
    congrFun (congrFun (content_setSize _ i _) i) q
  have hout : ¬ (b.length ≤ q ∧ q < b.length + k) →
      b.getD q 0 = (b ++ p.take k).getD q 0 := fun hq => by
    by_cases hqb : q < b.length
    · rw [getD_append _ _ _ _ hqb]
    · rw [getD_eq_default _ _ (not_lt.mp hqb), getD_eq_default]
      simp only [length_append, length_take]
      omega
  rw [hedit, content_write ho h0]
  by_cases hq : q / bsize = b.length / bsize
  · have hq' : q / 1024 = b.length / 1024 := hq
    have hold : Bytes.byte (S.data (S.fileBlock i (b.length / bsize))) (q % bsize) =
        b.getD q 0 := by
      rw [← hcont q, content_of_ne_zero (by rwa [hq]), hq]
    rw [if_pos hq, tailBlock]
    by_cases hin : b.length ≤ q ∧ q < b.length + k
    · have hlo : b.length % bsize ≤ q % bsize := by
        show b.length % 1024 ≤ q % 1024
        omega
      have hhi : q % bsize < b.length % bsize + k := by
        show q % 1024 < b.length % 1024 + k
        omega
      have hsub : q % bsize - b.length % bsize = q - b.length := by
        show q % 1024 - b.length % 1024 = q - b.length
        omega
      rw [Bytes.byte_splice_of_mem hkb hlo hhi, hsub, getD_append_right _ _ _ _ hin.1,
        getD_eq_getElem _ _ (show q - b.length < p.length by omega),
        getD_eq_getElem _ _ (by simp only [length_take]; omega), getElem_take]
    · have hnot : q % bsize < b.length % bsize ∨ b.length % bsize + k ≤ q % bsize := by
        show q % 1024 < b.length % 1024 ∨ b.length % 1024 + k ≤ q % 1024
        omega
      rw [Bytes.byte_splice_of_not_mem hnot, hold]
      exact hout hin
  · rw [if_neg hq, hcont]
    refine hout fun hin => hq ?_
    show q / 1024 = b.length / 1024
    omega

/-- **One turn of the loop of `iappend`**, in the view. -/
theorem FileAt.append (hf : FileAt S i ⟨ty, b⟩) (hal : Store.Allocs (geometry n) i S S')
    (hmap : ∀ bn, S'.fileBlock i bn ≠ 0 ↔ S.fileBlock i bn ≠ 0 ∨ bn = b.length / bsize)
    (hroot : S'.addr (i, ndirect) ≠ 0 ↔
      S.addr (i, ndirect) ≠ 0 ∨ ndirect ≤ b.length / bsize) (hlt : b.length / bsize < maxFile)
    (hk0 : 0 < k) (hk : k ≤ p.length) (hkb : b.length % bsize + k ≤ bsize) :
    FileAt (appendTo S' i b p k) i ⟨ty, b ++ p.take k⟩ := by
  have hkb' : b.length % 1024 + k ≤ 1024 := hkb
  have hlt' : b.length / 1024 < 268 := hlt
  have hlen : (b ++ p.take k).length = b.length + k := by
    simp only [length_append, length_take]
    omega
  have haddr := appendTo_addr hal.owned i b p k
  refine ⟨hf.type_ne, ?_, ?_, fun bn => ?_, ?_, fun q => ?_⟩
  · rw [hlen]
    show b.length + k ≤ 268 * 1024
    omega
  · have hdin : (appendTo S' i b p k).din i =
        { S'.din i with size := UInt32.ofNat (b.length + k) } := edit_din_self ..
    rw [hdin, hal.same, hf.din]
    simp only [hlen]
  · rw [Store.fileBlock, haddr]
    refine (hmap bn).trans ((or_congr_left (hf.mapped bn)).trans ?_)
    simp only [hlen]
    show bn * 1024 < b.length ∨ bn = b.length / 1024 ↔ bn * 1024 < b.length + k
    omega
  · rw [haddr]
    refine hroot.trans ((or_congr_left hf.root).trans ?_)
    simp only [hlen]
    show 12 * 1024 < b.length ∨ 12 ≤ b.length / 1024 ↔ 12 * 1024 < b.length + k
    omega
  · exact content_appendTo hal.owned ((hmap _).mpr (.inr rfl))
      (fun q => (hal.content q).trans (hf.content q)) hk hkb q

/-- The file or the image has no room for `m` bytes after `l` of them. -/
def Overflows (l m : ℕ) (s : State) : Prop :=
  fssize + blocksOf l < s.freeblock + blocksOf (l + m) ∨ maxFile * bsize < l + m

/-- What the loop of `iappend` has done when it has appended `p` to `b`. -/
structure Appended (n i : ℕ) (F : ℕ → Option Node) (ty : Int16) (b p : List UInt8) (s : State)
    (r : Dinode × ℕ) (s' : State) : Prop where
  off : r.2 = b.length + p.length
  holds : Holds n (s'.eff n i r.2 r.1) (update F i (some ⟨ty, b ++ p⟩))
  clean : Clean s'
  freeinode : s'.freeinode = s.freeinode
  count : s'.freeblock + blocksOf b.length = s.freeblock + blocksOf (b.length + p.length)

/-- The write of one turn, in the view. -/
theorem State.eff_set (s : State) (hn : n ≤ ipb * ninodeblocks) (hlo : nmeta ≤ a)
    (ha : a = (s.eff n i b.length din).fileBlock i (b.length / bsize)) :
    (s.set a (Bytes.splice (s.sect a) (b.length % bsize) k fun q => p.getD q 0)).eff n i
      (b.length + k) din = appendTo (s.eff n i b.length din) i b p k := by
  rw [appendTo, tailBlock, ← ha, s.eff_data hlo, State.eff_din_self]
  show ((s.set a _).view n).edit i _ = (((s.view n).edit i _).write a _).edit i _
  rw [State.view_set s hn hlo, write_edit, edit_edit]

/-- One turn of the loop of `iappend` that has found its block, before what comes next. -/
theorem Mapped.turn {fuel : ℕ} {r : Dinode × UInt32} {Q : Dinode × ℕ → State → Prop}
    (hM : Mapped n i b.length (b.length / bsize) din s r s') (hn : n ≤ ipb * ninodeblocks)
    (hp : p ≠ []) (hlt : b.length / bsize < maxFile)
    (hh : Holds n (s.eff n i b.length din) (update F i (some ⟨ty, b⟩)))
    (hnext : ∀ k s₂, 0 < k → k ≤ p.length → Clean s₂ →
      Holds n (s₂.eff n i (b.length + k) r.1) (update F i (some ⟨ty, b ++ p.take k⟩)) →
      s₂.freeinode = s.freeinode →
      s₂.freeblock + blocksOf b.length = s.freeblock + blocksOf (b.length + k) →
      Ends (iappendFrom fuel r.1 (b.length + k) (p.drop k) s₂) Q E) :
    Ends ((do
      let n1 := min p.length ((b.length / bsize + 1) * bsize - b.length)
      let d ← rsect r.2.toNat
      wsect r.2.toNat
        (Bytes.splice d (b.length - b.length / bsize * bsize) n1 fun q => p.getD q 0)
      iappendFrom fuel r.1 (b.length + n1) (p.drop n1) : Mk (Dinode × ℕ)) s') Q E := by
  have hpos : 0 < p.length := length_pos_iff.mpr hp
  set k := min p.length ((b.length / bsize + 1) * bsize - b.length) with hk
  have hk' : k = min p.length ((b.length / 1024 + 1) * 1024 - b.length) := hk
  have hk0 : 0 < k := by omega
  have hkp : k ≤ p.length := Nat.min_le_left ..
  have hkb : b.length % bsize + k ≤ bsize := by
    show b.length % 1024 + k ≤ 1024
    omega
  have hoff : b.length - b.length / bsize * bsize = b.length % bsize := by
    show b.length - b.length / 1024 * 1024 = b.length % 1024
    omega
  have ho := hM.allocs.owned
  have hne : (s'.eff n i b.length r.1).fileBlock i (b.length / bsize) ≠ 0 :=
    (hM.mapped _).mpr (.inr rfl)
  have hx := hM.block
  have hlo : nmeta ≤ r.2.toNat := hx ▸ (geometry_nmeta n).ge.trans (ho.range _ hne).1
  have hhi : r.2.toNat < fssize := hx ▸ (ho.range _ hne).2
  have hused : r.2.toNat < s'.freeblock := hx ▸ of_decide_eq_true (ho.used_of_slot hne)
  rw [hoff, bind_of_ok (rsect_eq hM.clean.nsect hhi), bind_of_ok (wsect_eq hM.clean.nsect hhi _)]
  refine hnext k _ hk0 hkp (hM.clean.set hlo hused _) ?_ hM.freeinode ?_
  · rw [s'.eff_set hn hlo hx]
    have hnode := hh.node i _ (update_self ..)
    have hgrows := hM.allocs.toGrows.trans (grows_appendTo ho i b p k)
    have := hh.grows hgrows (hnode.append hM.allocs hM.mapped hM.root hlt hk0 hkp hkb)
    rwa [update_idem] at this
  · rw [blocksOf_add hk0 hkb]
    exact hM.count

theorem iappendFrom_spec (hn : n ≤ ipb * ninodeblocks) {fuel : ℕ} (hfuel : p.length ≤ fuel)
    (hc : Clean s) (hh : Holds n (s.eff n i b.length din) (update F i (some ⟨ty, b⟩)))
    (hE : Overflows b.length p.length s → ∀ e, E e) :
    Ends (iappendFrom fuel din b.length p s) (Appended n i F ty b p s) E := by
  induction fuel generalizing s din b p with
  | zero =>
    obtain rfl := length_eq_zero_iff.mp (Nat.le_zero.mp hfuel)
    exact ⟨rfl, by rwa [append_nil], hc, rfl, rfl⟩
  | succ fuel ih =>
    rw [iappendFrom]
    by_cases hp : p = []
    · subst hp
      rw [if_pos rfl]
      exact ⟨rfl, by rwa [append_nil], hc, rfl, rfl⟩
    · have hpos : 0 < p.length := length_pos_iff.mpr hp
      rw [if_neg hp]
      by_cases hlt : b.length / bsize < maxFile
      · rw [if_pos hlt]
        have hf := hh.node i _ (update_self ..)
        have hE' : NoRoom b.length s → ∀ e, E e := fun h => hE (.inl (by
          have := blocksOf_mono (show b.length + 1 ≤ b.length + p.length by omega)
          rw [NoRoom] at h
          omega))
        have hblock : Ends (blockFor din (b.length / bsize) s) (fun r s' =>
            Mapped n i b.length (b.length / bsize) din s r s' ∨ Beyond b.length s r s') E := by
          by_cases hd : b.length / bsize < ndirect
          · exact blockFor_direct hc hh.owned hf hd
          · exact blockFor_indirect hn hc hh.owned hf hd hlt hE'
        refine hblock.bind fun r s₁ h₁ => ?_
        rcases h₁ with hM | ⟨hge, hsmall, hns, hno⟩
        · exact hM.turn hn hp hlt hh fun k s₂ hk hle hc₂ hh₂ hfree hcount => by
            have hlen : (b ++ p.take k).length = b.length + k := by
              simp only [length_append, length_take]
              omega
            have hrest : (b ++ p.take k).length + (p.drop k).length = b.length + p.length := by
              rw [hlen, length_drop]
              omega
            rw [← hlen] at hh₂ hcount ⊢
            have hnext := ih (p := p.drop k) (by rw [length_drop]; omega) hc₂ hh₂
              fun h => hE (by
                rw [Overflows, hrest] at h
                rw [Overflows]
                omega)
            refine hnext.imp fun r' s' h => ⟨h.off.trans hrest, ?_, h.clean,
              h.freeinode.trans hfree, ?_⟩
            · have := h.holds
              rwa [append_assoc, take_append_drop] at this
            · have := h.count
              rw [hrest] at this
              omega
        · rw [bind_of_error (rsect_error hns hge hsmall)]
          exact hE' hno _
      · rw [if_neg hlt]
        refine hE (.inr ?_) _
        have : ¬ b.length / 1024 < 268 := hlt
        show 268 * 1024 < b.length + p.length
        omega

/-! ## The functions of the source -/

/-- The image holds what `F` says. -/
structure Built (n : ℕ) (s : State) (F : ℕ → Option Node) : Prop where
  clean : Clean s
  holds : Holds n (s.view n) F

/-- **`iappend`** appends to a file, or there is no room for what it should append. -/
theorem iappend_spec (hn : n ≤ ipb * ninodeblocks) (hi : i < n) (hb : Built n s F)
    (hF : F i = some ⟨ty, b⟩) (hE : Overflows b.length p.length s → ∀ e, E e) :
    Ends (iappend i p s) (fun _ s' => Built n s' (update F i (some ⟨ty, b ++ p⟩)) ∧
      s'.freeinode = s.freeinode ∧
      s'.freeblock + blocksOf b.length = s.freeblock + blocksOf (b.length + p.length)) E := by
  have hf := hb.holds.node i _ hF
  have hsize : ((s.view n).din i).size.toNat = b.length := hf.size
  have hself : s.eff n i b.length ((s.view n).din i) = s.view n := by
    rw [State.eff, ← hsize, UInt32.ofNat_toNat]
    exact edit_self ..
  have hh : Holds n (s.eff n i b.length ((s.view n).din i))
      (update F i (some ⟨ty, b⟩)) := by
    rw [hself, ← hF, update_eq_self]
    exact hb.holds
  rw [iappend, bind_of_ok (hb.clean.rinode hn hi), hsize]
  refine (iappendFrom_spec hn le_rfl hb.clean hh hE).bind fun r s' h => ?_
  rw [h.clean.winode hn hi]
  refine ⟨⟨h.clean.putInode hn hi _, ?_⟩, h.freeinode, h.count⟩
  rw [s'.view_putInode hn hi]
  exact h.holds

/-- A new inode holds nothing. -/
theorem Holds.add (hh : Holds n S F) (hF : F i = none) (hty : ty ≠ 0) :
    Holds n (S.edit i { Dinode.zero with type := ty, nlink := 1 })
      (update F i (some ⟨ty, []⟩)) := by
  have hfree := hh.free i hF
  have hold : ∀ k, S.addr (i, k) = 0 := addr_of_free (by rw [hfree]; rfl)
  have hnew : ∀ k, (S.edit i { Dinode.zero with type := ty, nlink := 1 }).addr (i, k) = 0 :=
    addr_of_zero fun k => by
      rw [edit_din_self]
      rfl
  have haddr : (S.edit i { Dinode.zero with type := ty, nlink := 1 }).addr = S.addr := by
    funext x
    obtain ⟨j, k⟩ := x
    by_cases hj : j = i
    · subst hj
      rw [hold, hnew]
    · exact addr_edit_of_ne S _ hj k
  refine hh.change ?_ ⟨hty, Nat.zero_le _, by rw [edit_din_self]; rfl, fun bn => ?_, ?_,
    fun q => content_of_zero (hnew _)⟩ (fun j hj => edit_din_of_ne S _ hj)
    (fun j _ k => congrFun haddr (j, k)) fun j _ q =>
      content_congr (fun k => congrFun haddr (j, k)) (fun _ _ => rfl) q
  · rw [Store.Owned, haddr]
    exact hh.owned
  · exact iff_of_false (fun h => h (hnew _)) (Nat.not_lt_zero _)
  · exact iff_of_false (fun h => h (hnew _)) (Nat.not_lt_zero _)

/-- **`ialloc`** -/
theorem ialloc_eq (hn : n ≤ ipb * ninodeblocks) (hi : s.freeinode < n) (hb : Built n s F)
    (hF : F s.freeinode = none) (hty : ty ≠ 0) : ∃ s', ialloc ty s = .ok (s.freeinode, s') ∧
      Built n s' (update F s.freeinode (some ⟨ty, []⟩)) ∧
      s'.freeinode = s.freeinode + 1 ∧ s'.freeblock = s.freeblock := by
  have hc : Clean { s with freeinode := s.freeinode + 1 } :=
    ⟨hb.clean.nsect, hb.clean.low, hb.clean.high, hb.clean.zero, hb.clean.super, hb.clean.writes⟩
  have hrun : ialloc ty s = .ok (s.freeinode,
      ({ s with freeinode := s.freeinode + 1 } : State).putInode s.freeinode
        { Dinode.zero with type := ty, nlink := 1 }) := by
    rw [ialloc, get_bind, modify_bind, bind_of_ok (hc.winode hn hi _)]
    rfl
  refine ⟨_, hrun, ⟨hc.putInode hn hi _, ?_⟩, rfl, rfl⟩
  rw [State.view_putInode _ hn hi]
  exact hb.holds.add hF hty

end Mkfs

end TrinityXv6
