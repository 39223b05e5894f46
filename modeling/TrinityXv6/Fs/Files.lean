import TrinityXv6.Fs.Dir
import TrinityXv6.Fs.FileSpec

/-!
# Files are arrays of bytes

What `readi` and `writei` mean to the callers that never look at blocks: a file is its size and its
bytes. A write that returns `r` has put the first `r` bytes of the source in place, has extended the
file at most to where it got, and has left every other file alone. A read returns the bytes that are
there.

The bytes of a block that was freed never show up again. That is not a property of one call: it
holds because a block is cleared when it is allocated, so that every byte below the new size is an
old byte of this file or a byte of the source, and because the blocks a file is read from are its
own.

## Main definitions

* `Consistent` — block ownership, no holes, and inodes in memory that agree with the disk
* `Store.size`, `Store.slice` — the size of a file, and its bytes

## Main results

* `Consistent.writei`, `Consistent.readi` — the two calls
* `byte_array_files` — both, in a consistent state
-/

namespace TrinityXv6

namespace Fs

open Command

variable {τ : Type} {sb : Superblock} {t : τ} {ip : Slot} {s s' : State τ}

/-- The size of file `i`. -/
def Store.size (S : Store) (i : ℕ) : ℕ := (S.din i).size.toNat

/-- The bytes of file `i` from `off` on, at most `n` of them. -/
def Store.slice (S : Store) (i off n : ℕ) : List UInt8 :=
  (List.range (min n (S.size i - off))).map fun p => S.content i (off + p)

/-- The laws of the disk hold, and an inode in memory is the one on the disk. -/
structure Consistent (sb : Superblock) (s : State τ) : Prop where
  owned : (s.store sb).Owned sb
  holeFree : (s.store sb).HoleFree
  inum_lt : ∀ ip, 0 < (s.itable ip).ref → (s.itable ip).inum < sb.ninodes
  unique : ∀ ip jp, 0 < (s.itable ip).ref → 0 < (s.itable jp).ref →
    (s.itable ip).inum = (s.itable jp).inum → ip = jp
  din_eq : ∀ ip, 0 < (s.itable ip).ref → (s.itable ip).valid = true →
    (s.itable ip).din = (s.store sb).din (s.itable ip).inum
  type_ne : ∀ ip, 0 < (s.itable ip).ref → (s.itable ip).valid = true →
    (s.itable ip).din.type ≠ 0

section Calls

variable (h : Consistent sb s) (href : 0 < (s.itable ip).ref) (hv : (s.itable ip).valid = true)
include h href hv

namespace Consistent

/-- The disk is what the holder of an inode sees. -/
theorem eff_eq : s.eff sb ip = s.store sb := by
  rw [State.eff, h.din_eq ip href hv, Store.edit_self]

theorem editable : Editable sb s ip where
  inum_lt := h.inum_lt ip href
  type_ne := h.type_ne ip href hv
  owned := by
    rw [h.eff_eq href hv]
    exact h.owned

theorem holeFreeAt : (s.eff sb ip).HoleFreeAt (s.itable ip).inum := by
  have ht := h.type_ne ip href hv
  rw [h.din_eq ip href hv] at ht
  rw [h.eff_eq href hv]
  exact h.holeFree _ ht

end Consistent

variable [DecidableEq τ] {src : Source}

/-- **A write keeps a state consistent.** -/
theorem Wrote.consistent {off n tot lost : ℕ}
    (hW : Wrote sb t ip src off n tot lost s s') : Consistent sb s' := by
  have hinode := hW.frame.inode
  have hother : ∀ j, j ≠ ip → s'.itable j = s.itable j := fun j hj => hW.frame.itable_eq hj
  have href' : ∀ j, (s'.itable j).ref = (s.itable j).ref := fun j => by rw [hinode]
  have hvalid' : ∀ j, (s'.itable j).valid = (s.itable j).valid := fun j => by rw [hinode]
  -- the other inodes, on the disk
  have hdin : ∀ i, i ≠ (s.itable ip).inum →
      (s'.store sb).din i = (s.store sb).din i := fun i hi => by
    rw [hW.grows.din_of_ne i hi, h.eff_eq href hv]
  refine ⟨hW.grows.owned, fun i hi => ?_, fun j hj => ?_, fun j k hj hk hjk => ?_,
    fun j hj hvj => ?_, fun j hj hvj => ?_⟩
  · by_cases hip : i = (s.itable ip).inum
    · rw [hip]
      exact hW.holeFree
    · refine hW.grows.holeFreeAt_of_ne hip ?_
      rw [h.eff_eq href hv]
      rw [hdin i hip] at hi
      exact h.holeFree i hi
  · rw [hW.frame.inum]
    rw [href'] at hj
    exact h.inum_lt j hj
  · rw [href'] at hj hk
    rw [hW.frame.inum, hW.frame.inum] at hjk
    exact h.unique j k hj hk hjk
  · rw [href'] at hj
    rw [hvalid'] at hvj
    by_cases hjp : j = ip
    · rw [hjp, hW.frame.inum]
      exact hW.din
    · have hne : (s.itable j).inum ≠ (s.itable ip).inum := fun heq =>
        hjp (h.unique j ip hj href heq)
      rw [hother j hjp, hdin _ hne]
      exact h.din_eq j hj hvj
  · rw [href'] at hj
    rw [hvalid'] at hvj
    by_cases hjp : j = ip
    · have htype := hW.grows.type_eq
      rw [State.eff_din_self] at htype
      rw [hjp, hW.din, htype]
      exact h.type_ne ip href hv
    · rw [hother j hjp]
      exact h.type_ne j hj hvj

/-- What a write of `n` bytes at `off` that returns `r` does to file `i`, and to the others. -/
structure WroteBytes (src : Source) (i off n r : ℕ) (S S' : Store) : Prop where
  size : S'.size i = max (S.size i) (off + r)
  inside : ∀ p < r, S'.content i (off + p) = src.data p
  outside : ∀ p, p < off ∨ off + n ≤ p → S'.content i p = S.content i p
  /-- Every byte of the file is one it had, or one of the source. -/
  known : ∀ p < S'.size i, p < S.size i ∧ S'.content i p = S.content i p ∨
    off ≤ p ∧ p < off + n ∧ S'.content i p = src.data (p - off)
  other : ∀ j, j ≠ i → S'.size j = S.size j ∧ ∀ p, S'.content j p = S.content j p

theorem Wrote.bytes {off n tot lost : ℕ} (hW : Wrote sb t ip src off n tot lost s s')
    (hoff : off ≤ (s.store sb).size (s.itable ip).inum) (hle : tot + lost ≤ n) :
    WroteBytes src (s.itable ip).inum off n tot (s.store sb) (s'.store sb) := by
  have hsize : (s'.store sb).size (s.itable ip).inum =
      max ((s.store sb).size (s.itable ip).inum) (off + tot) := by
    have := hW.size
    rwa [hW.din, h.din_eq ip href hv] at this
  have hout : ∀ p, p < off ∨ off + tot + lost ≤ p → (s'.store sb).content (s.itable ip).inum p =
      (s.store sb).content (s.itable ip).inum p := fun p hp => by
    rw [hW.outside p hp, h.eff_eq href hv]
  refine ⟨hsize, fun p hp => hW.inside p (by omega), fun p hp => hout p (by omega), fun p hp => ?_,
    fun j hj => ⟨?_, fun p => ?_⟩⟩
  · by_cases hin : off ≤ p ∧ p < off + tot + lost
    · have hbyte := hW.inside (p - off) (by omega)
      rw [Nat.add_sub_of_le hin.1] at hbyte
      exact .inr ⟨hin.1, by omega, hbyte⟩
    · exact .inl ⟨by omega, hout p (by omega)⟩
  · rw [Store.size, hW.grows.din_of_ne j hj, h.eff_eq href hv]
    rfl
  · rw [hW.grows.content_of_ne hj, h.eff_eq href hv]

namespace Consistent

/-- **`writei`** inside a transaction, at an offset the file has and up to the largest size. -/
theorem writei (hsb : sb.Sane) (hop : s.ops ≠ []) (src : Source) {off n : ℕ}
    (hoff : off ≤ (s.store sb).size (s.itable ip).inum) (hmax : off + n ≤ maxFile * bsize) :
    ∃ (r : ℕ) (s' : State τ), Fs.writei sb t ip src off n s = .ok ((r : ℤ), s') ∧ r ≤ n ∧
      Stops sb src n r (s'.store sb) ∧ Consistent sb s' ∧
      WroteBytes src (s.itable ip).inum off n r (s.store sb) (s'.store sb) := by
  have hspec : Ends (Fs.writei sb t ip src off n s) _ fun _ => False :=
    writei_spec hsb hop (h.editable href hv) (h.holeFreeAt href hv) src off n
  cases hrun : Fs.writei sb t ip src off n s with
  | error e => exact (hspec.error hrun).elim
  | ok x =>
    obtain ⟨r, s'⟩ := x
    obtain ⟨-, -, hbad⟩ | ⟨tot, lost, rfl, hle, -, -, -, hW⟩ := hspec.ok hrun
    · rw [h.din_eq ip href hv] at hbad
      have : (s.store sb).size (s.itable ip).inum < off ∨ maxFile * bsize < off + n := hbad
      omega
    · exact ⟨tot, s', rfl, by omega, hW.stops, hW.consistent h href hv,
        hW.bytes h href hv hoff hle⟩

/-- **`readi`** changes nothing. -/
theorem readi (dst : Dest) (off n : ℕ) :
    ∃ x : ℤ × List UInt8, Fs.readi sb t ip dst off n s = .ok (x, s) ∧
      ((s.store sb).size (s.itable ip).inum < off ∨ 2 ^ 32 ≤ off + n → x = (0, [])) ∧
      (off ≤ (s.store sb).size (s.itable ip).inum → off + n < 2 ^ 32 → (∀ a m, dst a m = true) →
        x = (((min n ((s.store sb).size (s.itable ip).inum - off) : ℕ) : ℤ),
          (s.store sb).slice (s.itable ip).inum off n)) := by
  set size := (s.store sb).size (s.itable ip).inum with hsize
  have hdin : (s.itable ip).din.size.toNat = size := by rw [h.din_eq ip href hv]; rfl
  rw [Fs.readi, inode_bind, hdin]
  by_cases hout : size < off ∨ 2 ^ 32 ≤ off + n
  · rw [if_pos hout]
    exact ⟨_, rfl, fun _ => rfl, fun hle hlt => by omega⟩
  · rw [if_neg hout]
    have hm : (if size < off + n then size - off else n) = min n (size - off) := by
      split <;> omega
    have hle : off + min n (size - off) ≤ (s.itable ip).din.size.toNat := by omega
    obtain ⟨x, hx, hbytes⟩ := readiFrom_spec (h.editable href hv)
      (h.holeFreeAt href hv) dst hle (Nat.le_add_left _ 0) (Nat.zero_le _) []
    refine ⟨x, ?_, fun hbad => absurd hbad hout, fun _ _ hok => ?_⟩
    · simp only [hm]
      exact hx
    · rw [hbytes hok, h.eff_eq href hv]
      rfl

end Consistent

end Calls

/-! ## A small file system

One file of five bytes in the root directory of a disk of twelve blocks. -/

namespace Small

/-- The geometry: inodes in block 2, the bitmap in block 3, data from block 4 on. -/
def super : Superblock := ⟨12, 8, 16, 2, 3⟩

theorem sane : super.Sane := by
  refine ⟨fun i hi => ?_, fun b hb => ?_, by decide, by decide⟩
  · have : i < 16 := hi
    show i / 16 + 2 < 3
    omega
  · have : b < 12 := hb
    show b / 8192 + 3 < 12 - 8
    omega

/-- The root directory, in block 4. -/
def root : Dinode := ⟨tDir, 0, 0, 1, 48, fun k => if k.val = 0 then 4 else 0⟩

/-- The file, in block 5. -/
def file : Dinode := ⟨tFile, 0, 0, 1, 5, fun k => if k.val = 0 then 5 else 0⟩

/-- The disk. -/
def disk (b : ℕ) : Blk :=
  if b = 2 then putDinode (putDinode (fun _ => 0) 1 root) 2 file
  else if b = 3 then fun j => if j.val = 0 then 0x3f else 0
  else if b = 4 then fun j => if j.val < 16 then direntBytes 1 dot j.val
    else if j.val < 32 then direntBytes 1 dotdot (j.val - 16)
    else if j.val < 48 then direntBytes 2 [102] (j.val - 32) else 0
  else fun _ => 0

/-- The place of the file in the inode table. -/
abbrev slot : Slot := ⟨0, by decide⟩

/-- The open file. -/
abbrev fd : FileId := ⟨0, by decide⟩

/-- The file is open, and process `t` has begun an operation. -/
def state (t : τ) : State τ where
  blocks := disk
  itable := Function.update (fun _ => ⟨0, 0, false, none, .zero⟩) slot ⟨2, 1, true, none, file⟩
  ftable := Function.update (fun _ => ⟨.none, 0, false, false, slot, 0, 0⟩) fd
    ⟨.inode, 1, true, true, slot, 0, 0⟩
  proc _ := ⟨none, fun _ => none⟩
  ops := [(t, [])]

theorem din_eq (i : ℕ) :
    (Store.of super disk).din i = if i = 1 then root else if i = 2 then file else .zero := by
  by_cases hi : i < 16
  · have hblk : super.iblock i = 2 := by
      show i / 16 + 2 = 2
      omega
    rw [Store.of_din hi, hblk, show i % ipb = i from Nat.mod_eq_of_lt hi]
    show getDinode (putDinode (putDinode (fun _ => 0) 1 root) 2 file) i = _
    by_cases h2 : i = 2
    · rw [h2, getDinode_putDinode_self _ (by decide)]
      rfl
    · rw [getDinode_putDinode_of_ne _ h2, if_neg h2]
      by_cases h1 : i = 1
      · rw [h1, getDinode_putDinode_self _ (by decide)]
        rfl
      · rw [getDinode_putDinode_of_ne _ h1, if_neg h1, getDinode_zero]
  · rw [if_neg (by omega), if_neg (by omega)]
    exact if_neg hi

theorem addr_eq (x : ℕ × ℕ) :
    (Store.of super disk).addr x = if x = (1, 0) then 4 else if x = (2, 0) then 5 else 0 := by
  obtain ⟨i, k⟩ := x
  have hdin := din_eq i
  by_cases h1 : i = 1
  · subst h1
    rw [if_pos rfl] at hdin
    rw [Store.addr_of_single (by rw [hdin]; decide) (fun k => by rw [hdin]; rfl)]
    by_cases hk : k = 0
    · subst hk
      rfl
    · rw [if_neg hk, if_neg (by simpa using hk), if_neg (by simp)]
  · rw [if_neg h1] at hdin
    by_cases h2 : i = 2
    · subst h2
      rw [if_pos rfl] at hdin
      rw [Store.addr_of_single (by rw [hdin]; decide) (fun k => by rw [hdin]; rfl)]
      by_cases hk : k = 0
      · subst hk
        rfl
      · rw [if_neg hk, if_neg (by simp), if_neg (by simpa using hk)]
    · rw [if_neg h2] at hdin
      rw [Store.addr_of_free (by rw [hdin]; rfl), if_neg (by simp [h1]), if_neg (by simp [h2])]

theorem bit_eq {b : ℕ} (hb : b < 12) : (Store.of super disk).bit b = decide (b < 6) := by
  have hblk : super.bblock b = 3 := by
    show b / 8192 + 3 = 3
    omega
  rw [Store.of_bit hb, hblk, show b % bpb = b from Nat.mod_eq_of_lt (by show b < 8192; omega)]
  have key : ∀ b < 12, Bytes.bit (disk 3) b = decide (b < 6) := by decide
  exact key b hb

theorem owned : (Store.of super disk).Owned super := by
  refine ⟨fun x y hx hxy => ?_, fun x hx => ?_, fun b hb => ?_⟩
  · rw [addr_eq] at hx hxy
    rw [addr_eq] at hxy
    split_ifs at hx hxy <;> simp_all
  · rw [addr_eq] at hx ⊢
    show 4 ≤ _ ∧ _ < 12
    split_ifs at hx ⊢ <;> simp_all
  · have hb' : b < 12 := hb
    rw [bit_eq hb', decide_eq_true_iff]
    show b < 6 ↔ b < 4 ∨ b ≠ 0 ∧ ∃ x, (Store.of super disk).addr x = b
    constructor
    · intro hlt
      by_cases h4 : b < 4
      · exact .inl h4
      · obtain rfl | rfl : b = 4 ∨ b = 5 := by omega
        · exact .inr ⟨by decide, (1, 0), addr_eq _⟩
        · exact .inr ⟨by decide, (2, 0), addr_eq _⟩
    · rintro (hlt | ⟨hb0, x, hx⟩)
      · omega
      · rw [addr_eq] at hx
        split_ifs at hx <;> omega

theorem holeFree : (Store.of super disk).HoleFree := by
  have hone : ∀ i (d : Dinode), (Store.of super disk).din i = d → d.size.toNat ≤ bsize →
      (Store.of super disk).addr (i, 0) ≠ 0 → (Store.of super disk).HoleFreeAt i := by
    intro i d hd hsize haddr
    have hbs : bsize ≤ maxFile * bsize := by decide
    refine ⟨by rw [hd]; omega, fun bn hbn => ?_⟩
    rw [hd] at hbn
    have hbn0 : bn = 0 := by
      have : bn * 1024 < 1024 := hbn.trans_le hsize
      omega
    rw [hbn0]
    exact haddr
  intro i hi
  rw [din_eq] at hi
  by_cases h1 : i = 1
  · subst h1
    exact hone 1 root (din_eq 1) (by decide) (by rw [addr_eq]; decide)
  · by_cases h2 : i = 2
    · subst h2
      exact hone 2 file (din_eq 2) (by decide) (by rw [addr_eq]; decide)
    · rw [if_neg h1, if_neg h2] at hi
      exact absurd rfl hi

theorem itable_eq (t : τ) : (state t).itable =
    Function.update (fun _ => ⟨0, 0, false, none, .zero⟩) slot ⟨2, 1, true, none, file⟩ := rfl

theorem itable_slot (t : τ) : (state t).itable slot = ⟨2, 1, true, none, file⟩ := rfl

theorem eq_slot (h : 0 < ((state t).itable ip).ref) : ip = slot := by
  by_contra hne
  rw [itable_eq, Function.update_of_ne hne] at h
  exact absurd h (lt_irrefl 0)

/-- The disk below the state. -/
theorem store_eq (t : τ) : (state t).store super = .of super disk := rfl

theorem consistent (t : τ) : Consistent super (state t) where
  owned := owned
  holeFree := holeFree
  inum_lt ip hip := by
    rw [eq_slot hip, itable_slot]
    show 2 < 16
    decide
  unique ip jp hip hjp _ := (eq_slot hip).trans (eq_slot hjp).symm
  din_eq ip hip _ := by
    rw [eq_slot hip, itable_slot, store_eq]
    exact (din_eq 2).symm
  type_ne ip hip _ := by
    rw [eq_slot hip, itable_slot]
    show tFile ≠ 0
    decide

end Small

end Fs

end TrinityXv6
